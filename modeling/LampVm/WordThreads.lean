import LampVm.WordAccess

/-!
# Threads in the middle of loads and stores

What holds between the threads and the abstract machine while loads and stores of words are under
way: a load has the bytes that the abstract machine has, what a store has stored is in memory, and
all other data is as in the abstract machine. Every step keeps it, and a thread that runs on its own
comes to the next instruction or interrupt of its core.
-/
namespace LampVm

open ByteOrder Contract Transition

/-! ## Threads and accesses -/

/-- A byte that a store has stored. -/
def WordAccess.Stored (w : WordAccess) (x : ℕ) : Prop :=
  w.op.stores = true ∧ ∃ k v, w.place = .byte k v ∧ w.addr.toNat ≤ x ∧ x < w.addr.toNat + k

/-- A load has the bytes of the abstract machine, and what a store has stored is in memory. -/
def WordAccess.Done (w : WordAccess) (g : Guest) (m : Bytes) : Prop :=
  ∀ k v, w.place = .byte k v → k ≤ 4 ∧
    match w.op with
    | .load _ => v = BitVec.ofNat 32 (leNat g.memory w.addr.toNat k)
    | .store value => ∀ x, w.addr.toNat ≤ x → x < w.addr.toNat + k →
        m x = BitVec.ofNat 8 (value.toNat / 256 ^ (x - w.addr.toNat))

/-- Core `c` is on its way through the instruction that the abstract machine is about to execute. -/
structure OnWay (P : GuestProgram) (N : ℕ) (g : Guest) (s : WordRun) (c : ℕ) (w : WordAccess) :
    Prop where
  core : c < N
  place : (s.run.threads c).place = .instruction
  word : ∃ i, P.Fetches (g.cpus c) i ∧ i.word (g.cpus c) = some (w.op, w.addr)
  done : w.Done g s.run.vm.memory

/-- The threads realize a guest up to the accesses that they are in. -/
structure WordsRealize (P : GuestProgram) (smpCores : ℤ) (g : Guest) (s : WordRun) : Prop where
  threads : ThreadsRealize P smpCores (g.ahead s.access s.run.vm.memory) s.run
  bounds : CacheBounds s.run.vm
  access : ∀ c w, s.access c = some w → OnWay P (coreCount smpCores) g s c w
  data : ∀ x, P.InData x → (∀ c w, s.access c = some w → ¬ w.Stored x) →
    s.run.vm.memory x = g.memory x

section Realize

variable {P : GuestProgram} {smpCores : ℤ} {g g' : Guest} (g₀ : Guest) {s t : WordRun} {c d : ℕ}
  {w u : WordAccess} {i : Asm} {vm : Vm} {m : Bytes} {access : ℕ → Option WordAccess}

/-- An instruction in one piece is one of a thread that is at it. -/
theorem instruction_of_event {r r' : VmRun} {l : RunLabel}
    (hs : (vmRun memSize smpCores).step r l r')
    (h : c ∈ (runEvents r l).filterMap Event.core) :
    l = .thread c ∧ (r.threads c).place = .instruction := by
  cases l with
  | thread d =>
    cases hplace : (r.threads d).place with
    | instruction =>
      simp only [runEvents, hplace, Event.core, List.filterMap_cons, List.filterMap_nil,
        List.mem_singleton] at h
      subst h
      exact ⟨rfl, hplace⟩
    | test | release | interrupts | count | tick | leave | done =>
      simp [runEvents, hplace, Event.core] at h
  | device e =>
    cases e with
    | instruction d => cases hs.1
    | handleInterrupts | diskTick | workerTake | workerTransfer | workerComplete | serialRx
    | timerTick | registerIsr => simp [runEvents, Event.core] at h
  | close | main => simp [runEvents] at h

/-- Only the data of the abstract memory counts. -/
theorem Realizes.congr_memory (h : Realizes P smpCores g vm)
    (hm : ∀ x, P.InData x → vm.memory x = m x) : Realizes P smpCores (g.withMemory m) vm :=
  ⟨h.sound, h.cpus, hm, h.laid.cpus rfl fun _ => rfl, h.unmasked, h.handling, h.savedIp, h.released,
    h.pending, h.halted, h.disk, h.worker⟩

theorem WordsRealize.runs (h : WordsRealize P smpCores g s) (hc : s.access c = some w) :
    g.Runs (coreCount smpCores) c :=
  h.threads.runs (h.access c w hc).core (.inr (h.access c w hc).place)

/-- What the abstract machine does at the end of an access. -/
theorem WordsRealize.execute (h : WordsRealize P smpCores g s)
    (hsafe : P.Unstuck (coreCount smpCores) g) (hc : s.access c = some w) :
    (P.dataStart ≤ w.addr.toNat ∧ w.addr.toNat + 4 ≤ P.dataEnd) ∧ PlainCell w.addr 4 ∧
      (guestMachine P (coreCount smpCores) g₀).step g (.instruction c)
        (((g.fetched c).setCpu c (w.op.apply w.addr (g.core c).fetched).cpu).withMemory
          (w.op.apply w.addr (g.core c).fetched).memory) := by
  obtain ⟨i, g', hfetch, hexec⟩ := hsafe c (h.runs hc)
  obtain ⟨j, hfetch', hword⟩ := (h.access c w hc).word
  obtain rfl := hfetch.unique hfetch'
  obtain ⟨hrange, hplain, rfl⟩ := execute_word hword hexec
  exact ⟨hrange, hplain, h.runs hc, i, hfetch, hexec⟩

/-- Two accesses with a store among them are apart. -/
theorem WordsRealize.apart (h : WordsRealize P smpCores g s)
    (hrace : P.RaceFree (coreCount smpCores) g) (hcd : c ≠ d) (hc : s.access c = some w)
    (hd : s.access d = some u) (hstores : w.op.stores = true) :
    w.addr.toNat + 4 ≤ u.addr.toNat ∨ u.addr.toNat + 4 ≤ w.addr.toNat := by
  obtain ⟨i, hi, hw⟩ := (h.access c w hc).word
  obtain ⟨j, hj, hu⟩ := (h.access d u hd).word
  exact hrace.data c d i j _ _ _ _ hcd (h.runs hc) (h.runs hd) hi hj hw hu hstores

/-- The instruction that a thread fetches. -/
theorem WordsRealize.next_word (h : WordsRealize P smpCores g s) (hc : s.access c = none)
    (hplace : (s.run.threads c).place = .instruction) (hfetch : P.Fetches (g.cpus c) i) :
    s.run.word c = i.word (g.cpus c) := by
  have hself : (s.run.vm.cpus c) = g.cpus c := by
    rw [h.threads.realizes.cpus, ahead_cpus hc]
  have hfetches : (s.run.vm.core c).Fetches i :=
    h.threads.realizes.fetches (c := c) (by rwa [ahead_cpus hc])
  have hram : inRam s.run.vm (s.run.vm.cpus c).fetchIp 8 := by
    rw [inRam, h.threads.realizes.sound.memorySize]
    exact hfetches.1
  rw [VmRun.word, if_pos ⟨hplace, hram⟩, nextInst_of_word (w := i.inst.encode) hfetches.2,
    Inst.decode_encode, Asm.inst_word, hself]

theorem access_update (h : Function.update access c (some w) d = some u) :
    d = c ∧ u = w ∨ d ≠ c ∧ access d = some u := by
  by_cases hdc : d = c
  · subst hdc
    rw [Function.update_self] at h
    exact .inl ⟨rfl, (Option.some.inj h).symm⟩
  · rw [Function.update_of_ne hdc] at h
    exact .inr ⟨hdc, h⟩

/-- A thread begins an access. -/
theorem WordsRealize.fetch (h : WordsRealize P smpCores g s)
    (hsafe : P.Unstuck (coreCount smpCores) g) (hc : c < s.run.vm.smpCores)
    (hnone : s.access c = none) {op : WordOp} {a : BitVec 32}
    (hword : s.run.word c = some (op, a)) :
    WordsRealize P smpCores g ⟨{ s.run with vm := s.run.vm.fetched c },
      Function.update s.access c (some ⟨op, a, .lookup⟩)⟩ := by
  have hplace : (s.run.threads c).place = .instruction := by
    by_contra hne
    rw [VmRun.word, if_neg fun hp => hne hp.1] at hword
    cases hword
  have hcore : c < coreCount smpCores := h.threads.realizes.sound.smpCores ▸ hc
  obtain ⟨i, g', hfetch, -⟩ := hsafe c (h.threads.runs hcore (.inr hplace))
  have hi : i.word (g.cpus c) = some (op, a) := by rw [← h.next_word hnone hplace hfetch, hword]
  refine ⟨⟨?_, h.threads.stopped, h.threads.released⟩, h.bounds, fun d u hu => ?_,
    fun x hx hfree => h.data x hx fun d u hu => ?_⟩
  · rw [ahead_begin hnone]
    exact h.threads.realizes.fetched c
  · obtain ⟨rfl, rfl⟩ | ⟨-, hu⟩ := access_update hu
    · exact ⟨hcore, hplace, ⟨i, hfetch, hi⟩, fun k v hk => by cases hk⟩
    · obtain ⟨hcore', hplace', hword', hdone⟩ := h.access d u hu
      exact ⟨hcore', hplace', hword', hdone⟩
  · refine hfree d u ((Function.update_of_ne ?_ _ _).trans hu)
    rintro rfl
    cases hnone.symm.trans hu

/-- An access goes on. -/
theorem WordsRealize.update (h : WordsRealize P smpCores g s) (hw : s.access c = some w)
    (place : WordPlace) (hreal : Realizes P smpCores (g.ahead s.access vm.memory) vm)
    (hbounds : CacheBounds vm) (hdone : { w with place := place }.Done g vm.memory)
    (hdata : ∀ x, P.InData x → ¬ { w with place := place }.Stored x →
      ¬ w.Stored x ∧ vm.memory x = s.run.vm.memory x)
    (hothers : ∀ d u, d ≠ c → s.access d = some u → u.op.stores = true →
      ∀ x, u.addr.toNat ≤ x → x < u.addr.toNat + 4 → vm.memory x = s.run.vm.memory x) :
    WordsRealize P smpCores g ⟨{ s.run with vm := vm },
      Function.update s.access c (some { w with place := place })⟩ := by
  refine ⟨⟨?_, h.threads.stopped, h.threads.released⟩, hbounds, fun d u hu => ?_,
    fun x hx hfree => ?_⟩
  · rw [ahead_update hw]
    exact hreal
  · obtain ⟨rfl, rfl⟩ | ⟨hdc, hu⟩ := access_update hu
    · obtain ⟨hcore, hplace, hword, -⟩ := h.access d w hw
      exact ⟨hcore, hplace, hword, hdone⟩
    · obtain ⟨hcore, hplace, hword, hold⟩ := h.access d u hu
      refine ⟨hcore, hplace, hword, fun k v hk => ?_⟩
      obtain ⟨hle, hop⟩ := hold k v hk
      refine ⟨hle, ?_⟩
      cases huop : u.op with
      | load rd =>
        rw [huop] at hop
        exact hop
      | store value =>
        rw [huop] at hop
        dsimp only at hop ⊢
        intro x h1 h2
        rw [hothers d u hdc hu (by rw [huop]; rfl) x h1 (by omega)]
        exact hop x h1 h2
  · obtain ⟨hnot, hsame⟩ := hdata x hx (hfree c _ (Function.update_self ..))
    refine hsame.trans (h.data x hx fun d u hu => ?_)
    by_cases hdc : d = c
    · subst hdc
      rwa [← Option.some.inj (hw.symm.trans hu)]
    · exact hfree d u ((Function.update_of_ne hdc _ _).trans hu)

/-- One more byte of a load. -/
theorem load_byte {m : Bytes} {a k : ℕ} (hk : k < 4) :
    BitVec.ofNat 32 (leNat m a k) ||| (m (a + k)).setWidth 32 <<< (8 * k) =
      BitVec.ofNat 32 (leNat m a (k + 1)) := by
  have hlt := leNat_lt m a k
  have hpow : (256 : ℕ) ^ k = 2 ^ (8 * k) := (pow_mul 2 8 k).symm
  have hle : 2 ^ (8 * k) ≤ 2 ^ 32 := Nat.pow_le_pow_right (by norm_num) (by omega)
  have hto : (BitVec.ofNat 32 (leNat m a k)).toNat = leNat m a k := by
    rw [BitVec.toNat_ofNat, Nat.mod_eq_of_lt (by omega)]
  refine BitVec.eq_of_toNat_eq ?_
  rw [toNat_or_shiftLeft _ _ (by omega) (by omega), hto, leNat_add, BitVec.toNat_ofNat,
    Nat.mod_eq_of_lt ?_, hpow]
  · simp only [leNat, Nat.mul_zero, Nat.add_zero]
  · have hsucc := leNat_lt m a (k + 1)
    rw [leNat_add] at hsucc
    have hle' : (256 : ℕ) ^ (k + 1) ≤ 256 ^ 4 := Nat.pow_le_pow_right (by norm_num) (by omega)
    omega

/-- A statement that stores nothing. -/
theorem WordsRealize.quiet (h : WordsRealize P smpCores g s) (hw : s.access c = some w)
    (place : WordPlace) (hmemory : vm.memory = s.run.vm.memory)
    (hreal : Realizes P smpCores (g.ahead s.access vm.memory) vm) (hbounds : CacheBounds vm)
    (hdone : { w with place := place }.Done g vm.memory)
    (hstored : ∀ x, w.Stored x → { w with place := place }.Stored x) :
    WordsRealize P smpCores g ⟨{ s.run with vm := vm },
      Function.update s.access c (some { w with place := place })⟩ :=
  h.update hw place hreal hbounds hdone
    (fun x _ hx => ⟨fun hs => hx (hstored x hs), by rw [hmemory]⟩)
    fun _ _ _ _ _ x _ _ => by rw [hmemory]

variable {rd : Fin regCount} {value v : BitVec 32} {a : BitVec 32} {k : ℕ}

/-- A byte is loaded that nobody stores. -/
theorem WordsRealize.loadByte (h : WordsRealize P smpCores g s)
    (hsafe : P.Unstuck (coreCount smpCores) g) (hrace : P.RaceFree (coreCount smpCores) g)
    (hw : s.access c = some ⟨.load rd, a, .byte k v⟩) (hk : k < 4) :
    WordsRealize P smpCores g ⟨s.run, Function.update s.access c (some ⟨.load rd, a,
      .byte (k + 1) (v ||| (s.run.vm.memory (a.toNat + k)).setWidth 32 <<< (8 * k))⟩)⟩ := by
  obtain ⟨⟨hlo, hhi⟩, -⟩ := h.execute g hsafe hw
  obtain ⟨-, hv⟩ := (h.access c _ hw).done k v rfl
  dsimp only at hlo hhi hv
  have hbyte : s.run.vm.memory (a.toNat + k) = g.memory (a.toNat + k) := by
    refine h.data _ ⟨by omega, by omega⟩ fun d u hu => ?_
    rintro ⟨hstores, j, v', hj, h1, h2⟩
    have hdc : d ≠ c := by
      rintro rfl
      rw [← Option.some.inj (hw.symm.trans hu)] at hstores
      cases hstores
    have hapart := h.apart hrace hdc hu hw hstores
    have hj4 := ((h.access d u hu).done j v' hj).1
    dsimp only at hapart
    omega
  refine h.quiet hw _ rfl h.threads.realizes h.bounds (fun k' v' hk' => ?_) fun x hx =>
    absurd hx.1 Bool.false_ne_true
  injection hk' with hk' hv'
  subst hk' hv'
  refine ⟨hk, ?_⟩
  dsimp only
  rw [hbyte, hv, load_byte hk]

variable (hcores : coreCount smpCores ≤ 64)
include hcores

/-- A byte is stored. -/
theorem WordsRealize.storeByte (h : WordsRealize P smpCores g s)
    (hsafe : P.Unstuck (coreCount smpCores) g) (hrace : P.RaceFree (coreCount smpCores) g)
    (hw : s.access c = some ⟨.store value, a, .byte k v⟩) (hk : k < 4) :
    WordsRealize P smpCores g
      ⟨{ s.run with vm := s.run.vm.withMemory (Function.update s.run.vm.memory (a.toNat + k)
        ((value >>> (8 * k) &&& 0xFF).setWidth 8)) },
        Function.update s.access c (some ⟨.store value, a, .byte (k + 1) v⟩)⟩ := by
  obtain ⟨⟨hlo, hhi⟩, -⟩ := h.execute g hsafe hw
  obtain ⟨-, hstored⟩ := (h.access c _ hw).done k v rfl
  dsimp only at hlo hhi hstored
  have hother {x : ℕ} (hx : x ≠ a.toNat + k) {b : BitVec 8} :
      Function.update s.run.vm.memory (a.toNat + k) b x = s.run.vm.memory x :=
    Function.update_of_ne hx _ _
  refine h.update hw _ ?_ h.bounds (fun k' v' hk' => ?_) (fun x hx hnot => ?_)
    fun d u hdc hu hstores x h1 h2 => ?_
  · exact h.threads.realizes.withMemory hcores (fun _ _ => rfl) fun x hx => hother fun hxk =>
      hx ⟨by omega, by omega⟩
  · injection hk' with hk' hv'
    subst hk' hv'
    refine ⟨hk, fun x h1 h2 => ?_⟩
    dsimp only at h1 h2
    by_cases hx : x = a.toNat + k
    · subst hx
      have hpow : (256 : ℕ) ^ k = 2 ^ (8 * k) := (pow_mul 2 8 k).symm
      rw [withMemory_memory, Function.update_self, byte_eq_ofNat (by decide),
        Nat.add_sub_cancel_left, hpow]
    · exact (hother hx).trans (hstored x h1 (by omega))
  · have hnew : ¬ (a.toNat ≤ x ∧ x < a.toNat + (k + 1)) := fun hx' =>
      hnot ⟨rfl, k + 1, v, rfl, hx'.1, hx'.2⟩
    refine ⟨?_, hother (by omega)⟩
    rintro ⟨-, k', v', hk', h1, h2⟩
    injection hk' with hk' hv'
    subst hk' hv'
    dsimp only at h1 h2
    omega
  · have hapart := h.apart hrace hdc hu hw hstores
    dsimp only at hapart
    exact hother (by omega)

/-- A statement of an access. -/
theorem WordsRealize.next (h : WordsRealize P smpCores g s)
    (hsafe : P.Unstuck (coreCount smpCores) g) (hrace : P.RaceFree (coreCount smpCores) g)
    (hw : s.access c = some w) {place : WordPlace}
    (hnext : w.next s.run.vm = some (vm, place)) :
    WordsRealize P smpCores g ⟨{ s.run with vm := vm },
      Function.update s.access c (some { w with place := place })⟩ := by
  obtain ⟨-, hcell, -⟩ := h.execute g hsafe hw
  have hplain := h.threads.realizes.sound.guestRam.plain hcell
  have hbefore (hplace : ∀ k v, w.place ≠ .byte k v) (x : ℕ) (hx : w.Stored x) :
      { w with place := place }.Stored x := by
    obtain ⟨-, k, v, hk, -⟩ := hx
    exact absurd hk (hplace k v)
  obtain ⟨op, a, place₀⟩ := w
  cases place₀ with
  | lookup =>
    simp only [WordAccess.next] at hnext
    split_ifs at hnext
    obtain ⟨rfl, rfl⟩ := Prod.mk.inj (Option.some.inj hnext)
    exact h.quiet hw _ rfl h.threads.realizes h.bounds (fun k v hk => by cases hk)
      (hbefore fun k v hk => by cases hk)
  | test cached =>
    simp only [WordAccess.next] at hnext
    split_ifs at hnext
    obtain ⟨rfl, rfl⟩ := Prod.mk.inj (Option.some.inj hnext)
    exact h.quiet hw _ rfl h.threads.realizes h.bounds (fun k v hk => by cases hk)
      (hbefore fun k v hk => by cases hk)
  | clear =>
    simp only [WordAccess.next] at hnext
    split_ifs at hnext
    obtain ⟨rfl, rfl⟩ := Prod.mk.inj (Option.some.inj hnext)
    refine h.quiet hw _ rfl h.threads.realizes.uncached h.bounds (fun k v hk => ?_)
      (hbefore fun k v hk => by cases hk)
    injection hk with hk hv
    subst hk hv
    refine ⟨Nat.zero_le 4, ?_⟩
    cases op with
    | load rd => rfl
    | store value => exact fun x h1 h2 => absurd h2 (not_lt.mpr h1)
  | byte k v =>
    simp only [WordAccess.next] at hnext
    split_ifs at hnext with hk
    rw [hplain.toNat_add hk] at hnext
    cases op with
    | load rd =>
      obtain ⟨rfl, rfl⟩ := Prod.mk.inj (Option.some.inj hnext)
      exact h.loadByte hsafe hrace hw hk
    | store value =>
      obtain ⟨rfl, rfl⟩ := Prod.mk.inj (Option.some.inj hnext)
      exact h.storeByte hcores hsafe hrace hw hk

omit hcores in
/-- The machine behind an access. -/
theorem WordsRealize.finished (h : WordsRealize P smpCores g s) (hw : s.access c = some w)
    (hfinish : w.finish c s.run.vm = some vm) :
    vm.memory = s.run.vm.memory ∧ CacheBounds vm ∧
      Realizes P smpCores ((g.ahead s.access s.run.vm.memory).setCpu c
        (w.op.apply w.addr (g.core c).fetched).cpu) vm ∧
      ∀ x, w.Stored x ∨ s.run.vm.memory x = g.memory x →
        s.run.vm.memory x = (w.op.apply w.addr (g.core c).fetched).memory x := by
  have hahead : (g.ahead s.access s.run.vm.memory).cpus c = (g.core c).fetched.cpu := by
    simp only [Guest.ahead, hw, Option.isSome_some, if_true]
  have hself := h.threads.realizes.cpus ▸ hahead
  have hdone := (h.access c w hw).done
  obtain ⟨op, a, place⟩ := w
  cases place with
  | lookup | test | clear => cases hfinish
  | byte k v =>
    obtain ⟨hle, hop⟩ := hdone k v rfl
    simp only [WordAccess.finish] at hfinish
    split_ifs at hfinish with hk
    obtain rfl : k = 4 := by omega
    cases op with
    | load rd =>
      obtain rfl := Option.some.inj hfinish
      dsimp only at hop ⊢
      subst hop
      refine ⟨rfl, h.bounds, ?_, fun x hx => hx.resolve_left fun hs => Bool.false_ne_true hs.1⟩
      rw [hself]
      refine h.threads.realizes.setCpu ?_ (BitVec.isLt _)
      rw [hahead]
      rfl
    | store value =>
      obtain rfl := Option.some.inj hfinish
      dsimp only at hop ⊢
      refine ⟨rfl, h.bounds, ?_, fun x hx => ?_⟩
      · rw [WordOp.apply, ← hahead, Guest.setCpu, Function.update_eq_self]
        exact h.threads.realizes
      · by_cases hin : a.toNat ≤ x ∧ x < a.toNat + 4
        · exact (hop x hin.1 hin.2).trans (if_pos hin).symm
        · refine (hx.resolve_left ?_).trans (leStore_of_not_mem (by omega)).symm
          rintro ⟨-, k', v', hk', h1, h2⟩
          injection hk' with hk' hv'
          subst hk' hv'
          exact hin ⟨h1, h2⟩

omit hcores in
/-- An access comes to its end: the abstract machine executes the instruction. -/
theorem WordsRealize.finish (h : WordsRealize P smpCores g s)
    (hsafe : P.Unstuck (coreCount smpCores) g) (hrace : P.RaceFree (coreCount smpCores) g)
    (hw : s.access c = some w) (hfinish : w.finish c s.run.vm = some vm) :
    ∃ g', GuestMove P (coreCount smpCores) g₀ g (some c) [.instruction c] g' ∧
      WordsRealize P smpCores g' ⟨VmRun.put c .count (s.run.counters c) { s.run with vm := vm },
        Function.update s.access c none⟩ := by
  obtain ⟨-, -, hstep⟩ := h.execute g₀ hsafe hw
  obtain ⟨hmemory, hbounds, hreal, hdata⟩ := h.finished hw hfinish
  refine ⟨_, .step rfl hstep, ⟨?_, hbounds, fun d u hu => ?_, fun x hx hfree => ?_⟩⟩
  · rw [ahead_finish hw]
    refine h.threads.put ?_ ⟨fun _ hd _ => hd, fun _ hd => hd⟩ (fun _ => rfl) fun hp => by
      simp at hp
    rw [VmRun.put, hmemory]
    exact hreal
  · replace hu : Function.update s.access c none d = some u := hu
    have hdc : d ≠ c := by
      rintro rfl
      rw [Function.update_self] at hu
      cases hu
    rw [Function.update_of_ne hdc] at hu
    obtain ⟨hcore, hplace, ⟨i, hfetch, hi⟩, hdone⟩ := h.access d u hu
    have hcpu : (((g.fetched c).setCpu c (w.op.apply w.addr (g.core c).fetched).cpu).withMemory
        (w.op.apply w.addr (g.core c).fetched).memory).cpus d = g.cpus d :=
      (Function.update_of_ne hdc _ _).trans (Function.update_of_ne hdc _ _)
    refine ⟨hcore, ?_, ⟨i, by rwa [hcpu], by rwa [hcpu]⟩, fun k v hk => ?_⟩
    · rw [put_threads_of_ne _ _ hdc]
      exact hplace
    obtain ⟨hle, hop⟩ := hdone k v hk
    refine ⟨hle, ?_⟩
    cases huop : u.op with
    | load rd =>
      rw [huop] at hop
      dsimp only at hop
      rw [hop]
      refine congrArg (BitVec.ofNat 32) (leNat_congr fun x h1 h2 => ?_)
      refine (WordOp.apply_memory (s := (g.core c).fetched) fun hstores => ?_).symm
      have hapart := h.apart hrace (Ne.symm hdc) hw hu hstores
      omega
    | store value =>
      rw [huop] at hop
      dsimp only at hop ⊢
      intro x h1 h2
      exact (congrFun hmemory x).trans (hop x h1 h2)
  · refine (congrFun hmemory x).trans (hdata x ?_)
    by_cases hstored : w.Stored x
    · exact .inl hstored
    · refine .inr (h.data x hx fun d u hu => ?_)
      by_cases hdc : d = c
      · subst hdc
        rwa [← Option.some.inj (hw.symm.trans hu)]
      · exact hfree d u ((Function.update_of_ne hdc _ _).trans hu)

/-- A step in one piece. -/
theorem WordsRealize.piece (h : WordsRealize P smpCores g s)
    (hsafe : P.Unstuck (coreCount smpCores) g) (hrace : P.RaceFree (coreCount smpCores) g)
    {l : RunLabel} (hidle : ∀ c, l = .thread c → s.access c = none ∧ s.run.word c = none)
    (hs : (vmRun memSize smpCores).step s.run l t.run) (haccess : t.access = s.access) :
    ∃ ls g', GuestMove P (coreCount smpCores) g₀ g l.core ls g' ∧
      ls.filterMap GuestLabel.core = (runEvents s.run l).filterMap Event.core ∧
      WordsRealize P smpCores g' t := by
  have hthread (c : ℕ) (hc : l.core = some c) : l = .thread c := by
    cases l with
    | thread d => exact congrArg RunLabel.thread (Option.some.inj hc)
    | device | close | main => cases hc
  obtain ⟨ls, u, hmove, hcount, hu⟩ := h.threads.step g₀ hcores
    (fun c hl hruns => (hsafe c hruns).ahead (hidle c hl).1 _) hs
  have hword (c : ℕ) (i : Asm) (hmem : GuestLabel.instruction c ∈ ls)
      (hfetch : P.Fetches (g.cpus c) i) : i.word (g.cpus c) = none := by
    have hevent : c ∈ (runEvents s.run l).filterMap Event.core :=
      hcount ▸ List.mem_filterMap.mpr ⟨_, hmem, rfl⟩
    obtain ⟨rfl, hplace⟩ := instruction_of_event hs hevent
    obtain ⟨hc, hnone⟩ := hidle c rfl
    rw [← hnone, h.next_word hc hplace hfetch]
  have hstart (c : ℕ) (rd rs : Fin regCount) (hruns : g.Runs (coreCount smpCores) c)
      (hfetch : P.Fetches (g.cpus c) (.startap rd rs)) (hbsp : (g.cpus c).isBsp = true) (d : ℕ)
      (hd : ((g.cpus c).regs rd).toInt = d) : s.access d = none := by
    by_contra hne
    obtain ⟨w, hw⟩ := Option.ne_none_iff_exists'.mp hne
    exact hrace.start c d rd rs hruns (h.runs hw) hfetch hbsp hd
  obtain ⟨g', hmove', rfl, hbeside⟩ :=
    hmove.behind (fun c hc => (hidle c (hthread c hc)).1) hword hstart
  have hmemory (x : ℕ) (hx : P.InData x) : t.run.vm.memory x = s.run.vm.memory x :=
    hu.realizes.data x hx
  refine ⟨ls, g', hmove', hcount, ⟨?_, hu.stopped, hu.released⟩,
    oneWay_cacheBounds.step hs h.bounds, fun c w hw => ?_, fun x hx hfree => ?_⟩
  · rw [haccess]
    exact hu.realizes.congr_memory fun _ _ => rfl
  · rw [haccess] at hw
    obtain ⟨hcore, hplace, ⟨i, hfetch, hi⟩, hdone⟩ := h.access c w hw
    have hcpu : g'.cpus c = g.cpus c := hbeside.cpus c (by rw [hw]; exact Option.some_ne_none w)
    have hmoved : t.run.threads c = s.run.threads c := step_threads hs fun hl => by
      rw [(hidle c hl).1] at hw
      cases hw
    refine ⟨hcore, by rw [hmoved]; exact hplace, ⟨i, by rwa [hcpu], by rwa [hcpu]⟩,
      fun k v hk => ?_⟩
    obtain ⟨hle, hop⟩ := hdone k v hk
    refine ⟨hle, ?_⟩
    obtain ⟨⟨hlo, hhi⟩, -⟩ := h.execute g₀ hsafe hw
    cases hwop : w.op with
    | load rd =>
      rw [hwop] at hop
      dsimp only at hop ⊢
      rw [hbeside.memory]
      exact hop
    | store value =>
      rw [hwop] at hop
      dsimp only at hop ⊢
      intro x h1 h2
      rw [hmemory x ⟨by omega, by omega⟩]
      exact hop x h1 h2
  · rw [hmemory x hx, hbeside.memory]
    exact h.data x hx (haccess ▸ hfree)

/-- The step lemma: a step of the threads is one of the abstract machine, or none. It is one only
at the end of an access. -/
theorem WordsRealize.step (h : WordsRealize P smpCores g s)
    (hsafe : P.Unstuck (coreCount smpCores) g) (hrace : P.RaceFree (coreCount smpCores) g)
    {l : WordLabel} (hs : (wordRun smpCores).step s l t) :
    ∃ ls g', GuestMove P (coreCount smpCores) g₀ g l.thread ls g' ∧
      ls.filterMap GuestLabel.core = (wordEvents s l).filterMap Event.core ∧
      WordsRealize P smpCores g' t ∧ (ls ≠ [] → ∀ c, l.thread = some c → t.access c = none) := by
  cases l with
  | piece l =>
    obtain ⟨hidle, hpiece, haccess⟩ := hs
    obtain ⟨ls, g', hmove, hcount, ht⟩ := h.piece g₀ hcores hsafe hrace hidle hpiece haccess
    refine ⟨ls, g', hmove, hcount, ht, fun _ c hc => (congrFun haccess c).trans ?_⟩
    cases l with
    | thread d => exact (hidle c (congrArg RunLabel.thread (Option.some.inj hc))).1
    | device | close | main => cases hc
  | fetch c =>
    obtain ⟨hc, hnone, op, a, hword, rfl⟩ := hs
    exact ⟨[], g, .stay, rfl, h.fetch hsafe hc hnone hword, fun hne => absurd rfl hne⟩
  | access c =>
    obtain ⟨w, vm, place, hw, hnext, rfl⟩ := hs
    exact ⟨[], g, .stay, rfl, h.next hcores hsafe hrace hw hnext, fun hne => absurd rfl hne⟩
  | finish c =>
    obtain ⟨w, vm, hw, hfinish, rfl⟩ := hs
    obtain ⟨g', hmove, hreal⟩ := h.finish g₀ hsafe hrace hw hfinish
    refine ⟨_, g', hmove, rfl, hreal, fun _ d hd => ?_⟩
    obtain rfl := Option.some.inj hd
    exact Function.update_self ..

omit hcores in
/-- An access that is under way never panics and never goes to a device. -/
theorem WordsRealize.exists_next (h : WordsRealize P smpCores g s)
    (hsafe : P.Unstuck (coreCount smpCores) g) (hw : s.access c = some w) :
    ∃ l t, l.thread = some c ∧ (wordRun smpCores).step s l t := by
  obtain ⟨⟨hlo, hhi⟩, hcell, -⟩ := h.execute g hsafe hw
  have hplain := h.threads.realizes.sound.guestRam.plain hcell
  have hgo {r : Vm × WordPlace} (hr : w.next s.run.vm = some r) :
      ∃ l t, l.thread = some c ∧ (wordRun smpCores).step s l t :=
    ⟨.access c, _, rfl, w, r.1, r.2, hw, hr, rfl⟩
  have hend {vm : Vm} (hr : w.finish c s.run.vm = some vm) :
      ∃ l t, l.thread = some c ∧ (wordRun smpCores).step s l t :=
    ⟨.finish c, _, rfl, w, vm, hw, hr, rfl⟩
  obtain ⟨op, a, place⟩ := w
  dsimp only at hlo hhi hcell hplain
  cases place with
  | lookup =>
    exact hgo (r := (_, _)) (if_neg fun hunaligned => hunaligned.2 hcell.2.2)
  | test cached =>
    have hne : a ≠ 0 := by
      rintro rfl
      have hbase : programBase = 0x201C := rfl
      have hcode := P.code_le
      have hzero : (0 : BitVec 32).toNat = 0 := rfl
      omega
    have hscan : scanMmio s.run.vm.mmioDevices a = none := by
      simp only [scanMmio, List.find?_eq_none, decide_eq_true_eq]
      exact hplain.noDevice a le_rfl (by omega)
    refine hgo (r := (s.run.vm, .clear))
      ((if_neg fun hhit => h.bounds.miss hne hplain hhit.2).trans ?_)
    rw [hscan]
    rfl
  | clear => exact hgo (r := (_, _)) (if_pos hplain.inRam)
  | byte k v =>
    by_cases hk : k < 4
    · cases op with
      | load rd => exact hgo (r := (_, _)) (if_pos hk)
      | store value => exact hgo (r := (_, _)) (if_pos hk)
    · cases op with
      | load rd => exact hend (if_neg hk)
      | store value => exact hend (if_neg hk)

/-- A thread that has not ended can take its next statement. -/
theorem WordsRealize.exists_step (h : WordsRealize P smpCores g s)
    (hsafe : P.Unstuck (coreCount smpCores) g) (hc : c < coreCount smpCores)
    (hdone : (s.run.threads c).place ≠ .done) :
    ∃ l t, l.thread = some c ∧ (wordRun smpCores).step s l t := by
  cases hw : s.access c with
  | some w => exact h.exists_next hsafe hw
  | none =>
    have hcore : c < s.run.vm.smpCores := h.threads.realizes.sound.smpCores.symm ▸ hc
    cases hword : s.run.word c with
    | some r => exact ⟨.fetch c, _, rfl, hcore, hw, r.1, r.2, hword, rfl⟩
    | none =>
      obtain ⟨t, ht⟩ := h.threads.advance hcores hc fun hruns => (hsafe c hruns).ahead hw _
      refine ⟨.piece (.thread c), ⟨t, s.access⟩, rfl, fun d hd => ?_, ⟨hcore, hdone, ht⟩, rfl⟩
      injection hd with hd
      subst hd
      exact ⟨hw, hword⟩

omit hcores in
/-- A thread that is about to load or to store is at an instruction. -/
theorem word_place {r : WordOp × BitVec 32}
    (h : s.run.word c = some r) : (s.run.threads c).place = .instruction := by
  by_contra hne
  rw [VmRun.word, if_neg fun hat => hne hat.1] at h
  cases h

end Realize

/-! ## Progress -/

/-- A thread in the loop of `vm_thread`, with nothing that tells it to leave. -/
structure WordRun.InLoop (s : WordRun) (c : ℕ) : Prop where
  goes : s.run.halted = false
  leave : (s.run.threads c).place ≠ .leave
  done : (s.run.threads c).place ≠ .done

/-- Bounds on the statements up to the next instruction or interrupt. -/
def WordPlace.distance : WordPlace → ℕ
  | .lookup => 7
  | .test _ => 6
  | .clear => 5
  | .byte k _ => 4 - k

def ThreadPlace.distance : ThreadPlace → ℕ
  | .instruction => 8
  | .interrupts => 9
  | .release => 10
  | .test => 11
  | .tick => 12
  | .count => 13
  | .leave | .done => 14

def WordRun.distance (s : WordRun) (c : ℕ) : ℕ :=
  match s.access c with
  | some w => w.place.distance
  | none => (s.run.threads c).place.distance

section Progress

variable {smpCores : ℤ} {s t : WordRun} {c d : ℕ} {l : WordLabel} {w : WordAccess} {vm : Vm}
  {place : WordPlace} {vm' : Vm}

theorem distance_idle (h : s.access c = none) :
    s.distance c = (s.run.threads c).place.distance := by
  rw [WordRun.distance, h]

theorem distance_access (h : s.access c = some w) : s.distance c = w.place.distance := by
  rw [WordRun.distance, h]

/-- A statement of an access comes nearer to its end. -/
theorem WordAccess.next_nearer (h : w.next vm = some (vm', place)) :
    place.distance < w.place.distance := by
  obtain ⟨op, a, place₀⟩ := w
  cases place₀ with
  | lookup | test | clear =>
    simp only [WordAccess.next] at h
    split_ifs at h
    obtain ⟨rfl, rfl⟩ := Prod.mk.inj (Option.some.inj h)
    exact Nat.lt_succ_self _
  | byte k v =>
    simp only [WordAccess.next] at h
    split_ifs at h with hk
    have hlt : 4 - (k + 1) < 4 - k := by omega
    cases op with
    | load rd | store value =>
      obtain ⟨rfl, rfl⟩ := Prod.mk.inj (Option.some.inj h)
      exact hlt

theorem exists_threadMove {r r' : VmRun} (hs : (vmRun memSize smpCores).step r (.thread c) r') :
    ∃ events vm place counters, ThreadMove c r events vm place counters ∧
      r' = VmRun.put c place counters { r with vm := vm } ∧ runEvents r (.thread c) = events := by
  obtain ⟨-, hdone, hthread⟩ := hs
  obtain ⟨vm, place, counters, hmove, hput⟩ := threadStep_move hdone hthread
  exact ⟨_, vm, place, counters, hmove, hput, rfl⟩

/-- A thread changes nothing of the others. -/
theorem wordStep_others (hs : (wordRun smpCores).step s l t) (hl : l.thread = some c)
    (hd : d ≠ c) : t.run.threads d = s.run.threads d ∧ t.access d = s.access d := by
  cases l with
  | piece l =>
    obtain ⟨-, hpiece, haccess⟩ := hs
    refine ⟨step_threads hpiece ?_, congrFun haccess d⟩
    rintro rfl
    exact hd (Option.some.inj hl)
  | fetch e =>
    obtain rfl : e = c := Option.some.inj hl
    obtain ⟨-, -, op, a, -, rfl⟩ := hs
    exact ⟨rfl, Function.update_of_ne hd _ _⟩
  | access e =>
    obtain rfl : e = c := Option.some.inj hl
    obtain ⟨w, vm, place, -, -, rfl⟩ := hs
    exact ⟨rfl, Function.update_of_ne hd _ _⟩
  | finish e =>
    obtain rfl : e = c := Option.some.inj hl
    obtain ⟨w, vm, -, -, rfl⟩ := hs
    exact ⟨put_threads_of_ne _ _ hd, Function.update_of_ne hd _ _⟩

/-- While the machine is not halted its thread stays in the loop. -/
theorem WordRun.InLoop.step (h : s.InLoop c) (hs : (wordRun smpCores).step s l t)
    (hl : l.thread = some c) (ht : t.run.vm.halted = false) : t.InLoop c := by
  have hclosed : s.run.closed = false := (Bool.or_eq_false_iff.mp h.goes).2
  have hgo (hsame : t.run.closed = s.run.closed) (hleave : (t.run.threads c).place ≠ .leave)
      (hdone : (t.run.threads c).place ≠ .done) : t.InLoop c :=
    ⟨Bool.or_eq_false_iff.mpr ⟨ht, hsame.trans hclosed⟩, hleave, hdone⟩
  cases l with
  | piece l =>
    obtain ⟨-, hpiece, -⟩ := hs
    cases l with
    | device | close | main => cases hl
    | thread e =>
      obtain rfl : e = c := Option.some.inj hl
      obtain ⟨events, vm, place, counters, hmove, hput, -⟩ := exists_threadMove hpiece
      rw [hput] at hgo
      simp only [put_threads_self] at hgo
      have hgoes := h.goes
      cases hmove with
      | test hplace => exact hgo rfl (by simp [hgoes]) (by simp [hgoes])
      | skip hplace | enter hplace | interrupts hplace | instruction hplace | tick hplace =>
        exact hgo rfl (by simp) (by simp)
      | count hplace => exact hgo rfl (by split_ifs <;> simp) (by split_ifs <;> simp)
      | leave hplace => exact absurd hplace h.leave
  | fetch e =>
    obtain ⟨-, -, op, a, -, rfl⟩ := hs
    exact hgo rfl h.leave h.done
  | access e =>
    obtain ⟨w, vm, place, -, -, rfl⟩ := hs
    exact hgo rfl h.leave h.done
  | finish e =>
    obtain rfl : e = c := Option.some.inj hl
    obtain ⟨w, vm, -, -, rfl⟩ := hs
    simp only [put_threads_self] at hgo
    exact hgo rfl (by simp) (by simp)

/-- A statement without an instruction comes nearer to the next one. -/
theorem WordRun.InLoop.nearer (h : s.InLoop c)
    (hreleased : c = 0 ∨ s.run.vm.coreReleased c = true)
    (hs : (wordRun smpCores).step s l t) (hl : l.thread = some c)
    (hsilent : (wordEvents s l).filterMap Event.core = []) : t.distance c < s.distance c := by
  cases l with
  | piece l =>
    obtain ⟨hidle, hpiece, haccess⟩ := hs
    cases l with
    | device | close | main => cases hl
    | thread e =>
      obtain rfl : e = c := Option.some.inj hl
      obtain ⟨hnone, -⟩ := hidle e rfl
      obtain ⟨events, vm, place, counters, hmove, hput, hevents⟩ := exists_threadMove hpiece
      rw [distance_idle hnone, distance_idle ((congrFun haccess e).trans hnone), hput,
        put_threads_self]
      change place.distance < _
      change (runEvents s.run (.thread e)).filterMap Event.core = [] at hsilent
      rw [hevents] at hsilent
      cases hmove with
      | test hplace =>
        rw [hplace, if_neg (by simp [h.goes])]
        decide
      | skip hplace hc =>
        rcases hreleased with h0 | h1
        · exact absurd h0 hc.1
        · cases h1.symm.trans hc.2
      | enter hplace | interrupts hplace | tick hplace =>
        rw [hplace]
        decide
      | instruction => cases hsilent
      | count hplace =>
        rw [hplace]
        split_ifs
        · decide
        · decide
      | leave hplace => exact absurd hplace h.leave
  | fetch e =>
    obtain rfl : e = c := Option.some.inj hl
    obtain ⟨-, hnone, op, a, hword, rfl⟩ := hs
    rw [distance_idle hnone, word_place hword, distance_access (Function.update_self ..)]
    exact Nat.lt_succ_self _
  | access e =>
    obtain rfl : e = c := Option.some.inj hl
    obtain ⟨w, vm, place, hw, hnext, rfl⟩ := hs
    rw [distance_access hw, distance_access (Function.update_self ..)]
    exact WordAccess.next_nearer hnext
  | finish e => cases hsilent

/-- A thread that is at no instruction takes its steps in one piece. -/
theorem wordStep_piece (hs : (wordRun smpCores).step s l t) (hl : l.thread = some c)
    (hidle : s.access c = none) (hplace : (s.run.threads c).place ≠ .instruction) :
    l = .piece (.thread c) := by
  cases l with
  | piece l =>
    cases l with
    | device | close | main => cases hl
    | thread e => rw [Option.some.inj hl]
  | fetch e =>
    obtain rfl : e = c := Option.some.inj hl
    obtain ⟨-, -, op, a, hword, -⟩ := hs
    exact absurd (word_place hword) hplace
  | access e =>
    obtain rfl : e = c := Option.some.inj hl
    obtain ⟨w, vm, place, hw, -⟩ := hs
    cases hidle.symm.trans hw
  | finish e =>
    obtain rfl : e = c := Option.some.inj hl
    obtain ⟨w, vm, hw, -⟩ := hs
    cases hidle.symm.trans hw

/-- It executes no instruction. -/
theorem wordEvents_ne (hs : (wordRun smpCores).step s l t) (hl : l.thread = some c)
    (hidle : s.access c = none) (hplace : (s.run.threads c).place ≠ .instruction) :
    (wordEvents s l).filterMap Event.core ≠ [c] := by
  obtain rfl := wordStep_piece hs hl hidle hplace
  intro hevents
  have hmem : c ∈ (runEvents s.run (.thread c)).filterMap Event.core := by
    rw [show (runEvents s.run (.thread c)).filterMap Event.core = [c] from hevents]
    exact List.mem_singleton_self c
  exact hplace (instruction_of_event hs.2.1 hmem).2

/-- It comes to one through `vm_handle_interrupts` only. -/
theorem wordStep_place (hs : (wordRun smpCores).step s l t) (hl : l.thread = some c)
    (hidle : s.access c = none) (hplace : (s.run.threads c).place ≠ .instruction) :
    t.access c = none ∧ ((t.run.threads c).place = .instruction →
      (s.run.threads c).place = .interrupts) := by
  obtain rfl := wordStep_piece hs hl hidle hplace
  obtain ⟨-, hpiece, haccess⟩ := hs
  obtain ⟨events, vm, place, counters, hmove, hput, -⟩ := exists_threadMove hpiece
  refine ⟨(congrFun haccess c).trans hidle, fun hat => ?_⟩
  rw [hput, put_threads_self] at hat
  cases hmove with
  | interrupts hfrom => exact hfrom
  | instruction hfrom => exact absurd hfrom hplace
  | test | count => split_ifs at hat
  | skip | enter | tick | leave => cases hat

end Progress

/-- Thread `c` on its own comes to a step of its core in the abstract machine. Where a vector is
pending and the core is in no handler it is an interrupt, unless the thread is past
`vm_handle_interrupts` already. -/
def GoesOn (P : GuestProgram) (smpCores : ℤ) (g₀ g : Guest) (p : WordRun × List Event) (c : ℕ)
    (Q : Guest → WordRun → Prop) : Prop :=
  ∃ labels r l g', Run ((wordRun smpCores).logged wordEvents) p labels r ∧
    (∀ m ∈ labels, m.thread = some c) ∧ l.thread = some c ∧
    (guestMachine P (coreCount smpCores) g₀).step g l g' ∧
    (p.1.access c = none → (p.1.run.threads c).place ≠ .instruction → g.interrupted c = none →
      (∃ n, (c, n) ∈ g.pending) → ∃ n, l = .interrupt c n) ∧ Q g' r.1

theorem GoesOn.imp {P : GuestProgram} {smpCores : ℤ} {g₀ g : Guest} {p : WordRun × List Event}
    {c : ℕ} {Q Q' : Guest → WordRun → Prop} (h : GoesOn P smpCores g₀ g p c Q)
    (hQ : ∀ g' t, Q g' t → Q' g' t) : GoesOn P smpCores g₀ g p c Q' := by
  obtain ⟨labels, r, l, g', hrun, hlabels, hl, hstep, hprompt, hq⟩ := h
  exact ⟨labels, r, l, g', hrun, hlabels, hl, hstep, hprompt, hQ g' r.1 hq⟩

section Onward

variable {P : GuestProgram} {smpCores : ℤ} {g : Guest} (g₀ : Guest) {s t : WordRun} {c : ℕ}
  {l : WordLabel} (hcores : coreCount smpCores ≤ 64)
include hcores

omit g₀ in
/-- `vm_handle_interrupts` takes nothing only where nothing is pending. -/
theorem WordsRealize.takes (h : WordsRealize P smpCores g s) (ht : WordsRealize P smpCores g t)
    (hplace : (s.run.threads c).place = .interrupts) (hidle : s.access c = none)
    (hs : (wordRun smpCores).step s l t) (hl : l.thread = some c)
    (hnone : g.interrupted c = none) (n : ℕ) : (c, n) ∉ g.pending := by
  obtain rfl := wordStep_piece hs hl hidle (by rw [hplace]; decide)
  obtain ⟨-, hpiece, -⟩ := hs
  obtain ⟨events, vm, place, counters, hmove, hput, -⟩ := exists_threadMove hpiece
  have hpending : vm.pendingSet = g.pending := by
    have hreal := ht.threads.realizes.pending
    rwa [hput] at hreal
  cases hmove with
  | interrupts hat hrun =>
    obtain ⟨v, hrun', hv⟩ := h.threads.realizes.handleInterrupts hcores
      (h.threads.realizes.sound.smpCores ▸ hpiece.1)
    obtain rfl := (Prod.mk.inj (Except.ok.inj (hrun.symm.trans hrun'))).2
    rcases hv with ⟨-, hempty⟩ | ⟨k, -, hmem, hv⟩
    · exact hempty hnone n
    · have htaken := hv.pending
      rw [(enter_flags _ _).2.2, hpending] at htaken
      have hmem' : (c, k) ∈ g.pending := hmem
      rw [htaken] at hmem'
      exact absurd rfl hmem'.2
  | test hat | skip hat | enter hat | instruction hat | count hat | tick hat | leave hat =>
    cases hplace.symm.trans hat

omit hcores in
theorem WordsRealize.halted (h : WordsRealize P smpCores g s) :
    s.run.vm.halted = false ↔ ¬ g.stopped.Nonempty := by
  rw [← Bool.not_eq_true]
  exact not_congr h.threads.realizes.halted

/-- A thread that runs on its own comes to the next instruction or interrupt of its core. -/
theorem WordsRealize.goes_on (h : WordsRealize P smpCores g s)
    (hsafe : P.Unstuck (coreCount smpCores) g) (hrace : P.RaceFree (coreCount smpCores) g)
    (hruns : g.Runs (coreCount smpCores) c) (hloop : s.InLoop c) (log : List Event) :
    GoesOn P smpCores g₀ g (s, log) c fun g' t => WordsRealize P smpCores g' t ∧
      t.access c = none ∧ (t.run.vm.halted = false → t.InLoop c) := by
  -- on the statements that are left
  induction hk : s.distance c using Nat.strong_induction_on generalizing s log with
  | _ k ih =>
    obtain ⟨m, t, hm, hs⟩ := h.exists_step hcores hsafe hruns.1 hloop.done
    obtain ⟨ls, g', hmove, hcount, ht, hend⟩ := h.step g₀ hcores hsafe hrace hs
    have hlogged : ((wordRun smpCores).logged wordEvents).step (s, log) m
        (t, log ++ wordEvents s m) := ⟨hs, rfl⟩
    cases hmove with
    | stay =>
      have hvm : s.run.vm.halted = false := (Bool.or_eq_false_iff.mp hloop.goes).1
      have hreleased : c = 0 ∨ s.run.vm.coreReleased c = true := by
        rw [h.threads.realizes.released]
        exact hruns.2.1
      obtain ⟨labels, r, l, g', hrun, hlabels, hl, hstep, hprompt, hq⟩ :=
        ih (t.distance c) (hk ▸ hloop.nearer hreleased hs hm hcount.symm) ht
          (hloop.step hs hm (ht.halted.mpr (h.halted.mp hvm))) (log ++ wordEvents s m) rfl
      refine ⟨m :: labels, r, l, g', Run.cons hlogged hrun, fun m' hm' => ?_, hl, hstep,
        fun hidle hplace hnone hpending => ?_, hq⟩
      · rcases List.mem_cons.mp hm' with rfl | hm'
        · exact hm
        · exact hlabels m' hm'
      · obtain ⟨hidle', hfrom⟩ := wordStep_place hs hm hidle hplace
        refine hprompt hidle' (fun hat => ?_) hnone hpending
        obtain ⟨n, hn⟩ := hpending
        exact h.takes hcores ht (hfrom hat) hidle hs hm hnone n hn
    | @step label _ hl hstep =>
      refine ⟨[m], _, label, g', Run.snoc .nil hlogged, fun m' hm' => ?_, hl.trans hm, hstep,
        fun hidle hplace _ _ => ?_, ht, hend (List.cons_ne_nil _ _) c hm, hloop.step hs hm⟩
      · rwa [List.mem_singleton.mp hm']
      · cases label with
        | interrupt d n => exact ⟨n, by rw [Option.some.inj (hl.trans hm)]⟩
        | device n => cases hl.trans hm
        | instruction d =>
          obtain rfl : d = c := Option.some.inj (hl.trans hm)
          exact absurd hcount.symm (wordEvents_ne hs hm hidle hplace)

end Onward

end LampVm
