import LampVm.GuestMachine

/-!
# Guest programs and the threads

Whatever the order in which the threads of the machine take their statements, each in one piece,
and whenever the devices interrupt, a guest program runs as on the abstract machine. Booted on the
code of a program and with its handlers registered, the machine realizes the abstract one at its
start.
-/
namespace LampVm

open ByteOrder Contract Transition

/-! ## Steps of the threads -/

section Refinement

variable {P : GuestProgram} {smpCores : ℤ} {g₀ g : Guest} {s t : VmRun} {c : ℕ}

/-- The core of an instruction. -/
def GuestLabel.core : GuestLabel → Option ℕ
  | .instruction c => some c
  | _ => none

def Event.core : Event → Option ℕ
  | .instruction c => some c
  | _ => none

/-- The threads realize a guest: those of the cores that have halted are past their instruction,
and a core that has not been released is not at one. -/
structure ThreadsRealize (P : GuestProgram) (smpCores : ℤ) (g : Guest) (s : VmRun) : Prop where
  realizes : Realizes P smpCores g s.vm
  stopped : ∀ c ∈ g.stopped, (s.threads c).place.pastTest = false
  released : ∀ c, (s.threads c).place = .interrupts ∨ (s.threads c).place = .instruction →
    c = 0 ∨ g.released c = true

/-- The core that takes an instruction or an interrupt. -/
def GuestLabel.thread : GuestLabel → Option ℕ
  | .instruction c | .interrupt c _ => some c
  | .device _ => none

def RunLabel.core : RunLabel → Option ℕ
  | .thread c => some c
  | _ => none

/-- At most one step of the abstract machine, of one core or of a device. -/
inductive GuestMove (P : GuestProgram) (N : ℕ) (g₀ g : Guest) (who : Option ℕ) :
    List GuestLabel → Guest → Prop
  | stay : GuestMove P N g₀ g who [] g
  | step {l : GuestLabel} {g' : Guest} (hl : l.thread = who)
      (h : (guestMachine P N g₀).step g l g') : GuestMove P N g₀ g who [l] g'

theorem GuestMove.run {N : ℕ} {who : Option ℕ} {ls ls' : List GuestLabel} {g' : Guest}
    (h : GuestMove P N g₀ g who ls' g') (hrun : Run (guestMachine P N g₀) g₀ ls g) :
    Run (guestMachine P N g₀) g₀ (ls ++ ls') g' := by
  cases h with
  | stay => rwa [List.append_nil]
  | step _ h => exact hrun.snoc h

theorem enter_flags (n : ℕ) (g : Guest) :
    (P.enter c n g).stopped = g.stopped ∧ (P.enter c n g).released = g.released ∧
      (P.enter c n g).pending = g.pending := by
  rw [GuestProgram.enter]
  cases P.handler n with
  | none => exact ⟨rfl, rfl, rfl⟩
  | some entry => exact ⟨rfl, rfl, rfl⟩

/-- An instruction stops no core but its own, and takes no release back. -/
theorem execute_flags {N : ℕ} {i : Asm} {g' : Guest} (h : P.execute N c g i = some g') :
    (∀ d ∈ g'.stopped, d ≠ c → d ∈ g.stopped) ∧
      ∀ d, g.released d = true → g'.released d = true := by
  cases i with
  | startap rd rs =>
    obtain rfl := Option.some.inj h
    rw [Guest.start]
    split_ifs
    · refine ⟨fun _ hd _ => hd, fun d hd => ?_⟩
      by_cases htarget : d = ((g.cpus c).regs rd).toInt.toNat
      · subst htarget
        exact Function.update_self ..
      · exact (Function.update_of_ne htarget _ _).trans hd
    · exact ⟨fun _ hd _ => hd, fun _ hd => hd⟩
  | ipi rd rs =>
    obtain rfl := Option.some.inj h
    exact ⟨fun _ hd _ => hd, fun _ hd => hd⟩
  | halt =>
    obtain rfl := Option.some.inj h
    exact ⟨fun _ hd hdc => hd.resolve_left hdc, fun _ hd => hd⟩
  | iret =>
    obtain rfl := Option.some.inj h
    rw [Guest.resume]
    cases g.interrupted c with
    | none => exact ⟨fun _ hd _ => hd, fun _ hd => hd⟩
    | some saved => exact ⟨fun _ hd _ => hd, fun _ hd => hd⟩
  | mov | movi | load32 | store32 | cmpi | jmp | jump | call | cpuid | pause =>
    simp only [GuestProgram.execute] at h
    split_ifs at h with hw
    obtain ⟨s, -, rfl⟩ := Option.map_eq_some_iff.mp h
    exact ⟨fun _ hd _ => hd, fun _ hd => hd⟩

/-- A thread behind its test runs a core that runs. -/
theorem ThreadsRealize.runs (h : ThreadsRealize P smpCores g s) (hc : c < coreCount smpCores)
    (hplace : (s.threads c).place = .interrupts ∨ (s.threads c).place = .instruction) :
    g.Runs (coreCount smpCores) c := by
  refine ⟨hc, h.released c hplace, fun hstopped => ?_⟩
  have hpast := h.stopped c hstopped
  rcases hplace with hp | hp <;> rw [hp] at hpast <;> cases hpast

/-- The place of one thread changes. -/
theorem ThreadsRealize.put (h : ThreadsRealize P smpCores g s) {g' : Guest} {vm : Vm}
    {place : ThreadPlace} {counters : BitVec 64 × BitVec 64} (hreal : Realizes P smpCores g' vm)
    (hflags : (∀ d ∈ g'.stopped, d ≠ c → d ∈ g.stopped) ∧
      ∀ d, g.released d = true → g'.released d = true)
    (hstopped : c ∈ g'.stopped → place.pastTest = false)
    (hreleased : place = .interrupts ∨ place = .instruction → c = 0 ∨ g'.released c = true) :
    ThreadsRealize P smpCores g' (VmRun.put c place counters { s with vm := vm }) := by
  refine ⟨hreal, fun d hd => ?_, fun d hd => ?_⟩
  · by_cases hdc : d = c
    · subst hdc
      rw [put_threads_self]
      exact hstopped hd
    · rw [put_threads_of_ne _ _ hdc]
      exact h.stopped d (hflags.1 d hd hdc)
  · by_cases hdc : d = c
    · subst hdc
      rw [put_threads_self] at hd
      exact hreleased hd
    · rw [put_threads_of_ne _ _ hdc] at hd
      exact (h.released d hd).imp_right (hflags.2 d)

variable (hcores : coreCount smpCores ≤ 64)
include hcores

/-- A statement of a thread is a step of the abstract machine, or none. -/
theorem ThreadsRealize.move (h : ThreadsRealize P smpCores g s) {es : List Event}
    (hc : c < coreCount smpCores)
    (hsafe : g.Runs (coreCount smpCores) c → P.Advances (coreCount smpCores) g c) {vm : Vm}
    {place : ThreadPlace} {counters : BitVec 64 × BitVec 64}
    (hmove : ThreadMove c s es vm place counters) :
    ∃ ls g', GuestMove P (coreCount smpCores) g₀ g (some c) ls g' ∧
      ls.filterMap GuestLabel.core = es.filterMap Event.core ∧
      ThreadsRealize P smpCores g' (VmRun.put c place counters { s with vm := vm }) := by
  have hsame : (∀ d ∈ g.stopped, d ≠ c → d ∈ g.stopped) ∧
      ∀ d, g.released d = true → g.released d = true := ⟨fun _ hd _ => hd, fun _ hd => hd⟩
  have hquiet (hplace : c ∈ g.stopped → place.pastTest = false)
      (hreleased : place = .interrupts ∨ place = .instruction → c = 0 ∨ g.released c = true) :
      ThreadsRealize P smpCores g (VmRun.put c place counters { s with vm := s.vm }) :=
    h.put h.realizes hsame hplace hreleased
  cases hmove with
  | test hplace =>
    refine ⟨[], g, .stay, rfl, hquiet (fun hstopped => ?_) fun hp => ?_⟩
    · have hhalted : s.halted = true := by
        rw [VmRun.halted, h.realizes.halted.mpr ⟨c, hstopped⟩, Bool.true_or]
      rw [if_pos hhalted]
      rfl
    · split_ifs at hp <;> simp at hp
  | skip hplace => exact ⟨[], g, .stay, rfl, hquiet (fun _ => rfl) fun hp => by simp at hp⟩
  | enter hplace hreleased =>
    refine ⟨[], g, .stay, rfl, hquiet (fun hstopped => ?_) fun _ => ?_⟩
    · have hpast := h.stopped c hstopped
      rw [hplace] at hpast
      cases hpast
    · rwa [← h.realizes.released]
  | interrupts hplace hrun =>
    have hruns := h.runs hc (.inl hplace)
    obtain ⟨v, hrun', hv⟩ := h.realizes.handleInterrupts hcores hc
    obtain rfl := (Prod.mk.inj (Except.ok.inj (hrun.symm.trans hrun'))).2
    rcases hv with ⟨hv, -⟩ | ⟨n, hidle, hpending, hv⟩
    · exact ⟨[], g, .stay, rfl, h.put hv hsame (fun hstopped => absurd hstopped hruns.2.2)
        fun _ => hruns.2.1⟩
    · obtain ⟨hs, hr, -⟩ := enter_flags (P := P) (c := c) n
        { g with pending := g.pending \ {(c, n)} }
      refine ⟨[.interrupt c n], _, .step rfl ⟨hruns, hidle, hpending, rfl⟩, rfl,
        h.put hv ⟨fun d hd _ => ?_, fun d hd => ?_⟩ (fun hstopped => ?_) fun _ => ?_⟩
      · rwa [hs] at hd
      · rwa [hr]
      · rw [hs] at hstopped
        exact absurd hstopped hruns.2.2
      · rw [hr]
        exact hruns.2.1
  | instruction hplace hrun =>
    have hruns := h.runs hc (.inr hplace)
    obtain ⟨i, g', hfetch, hi⟩ := hsafe hruns
    obtain ⟨v, hrun', hv⟩ := h.realizes.instruction hcores hc hfetch hi
    obtain rfl := (Prod.mk.inj (Except.ok.inj (hrun.symm.trans hrun'))).2
    exact ⟨[.instruction c], g', .step rfl ⟨hruns, i, hfetch, hi⟩, rfl,
      h.put hv (execute_flags (g := g.fetched c) hi) (fun _ => rfl) fun hp => by simp at hp⟩
  | count hplace =>
    refine ⟨[], g, .stay, rfl, hquiet (fun _ => ?_) fun hp => ?_⟩
    · split_ifs
      · rfl
      · rfl
    · split_ifs at hp <;> simp at hp
  | tick hplace hrun =>
    obtain rfl := (Prod.mk.inj (Except.ok.inj (hrun.symm.trans h.realizes.diskTick))).2
    exact ⟨[], g, .stay, rfl, h.put h.realizes hsame (fun _ => rfl) fun hp => by simp at hp⟩
  | leave hplace => exact ⟨[], g, .stay, rfl, hquiet (fun _ => rfl) fun hp => by simp at hp⟩

variable (g₀) in
/-- So is every step in one piece, of a thread, a device, the window or the main thread. -/
theorem ThreadsRealize.step (h : ThreadsRealize P smpCores g s) {l : RunLabel}
    (hsafe : ∀ c, l = .thread c → g.Runs (coreCount smpCores) c →
      P.Advances (coreCount smpCores) g c)
    (hs : (vmRun memSize smpCores).step s l t) :
    ∃ ls g', GuestMove P (coreCount smpCores) g₀ g l.core ls g' ∧
      ls.filterMap GuestLabel.core = (runEvents s l).filterMap Event.core ∧
      ThreadsRealize P smpCores g' t := by
  cases l with
  | thread c =>
    obtain ⟨hc, hdone, hthread⟩ := hs
    obtain ⟨vm, place, counters, hmove, rfl⟩ := threadStep_move hdone hthread
    exact h.move hcores (h.realizes.sound.smpCores ▸ hc) (hsafe c rfl) hmove
  | device e =>
    obtain ⟨hdevice, hevent⟩ := hs
    obtain ⟨vm, hrun, rfl⟩ := event_ok hevent
    have hnone : (runEvents s (.device e)).filterMap Event.core = [] := by
      cases e with
      | instruction c => cases hdevice
      | _ => rfl
    rw [hnone]
    rcases h.realizes.deviceEvent hdevice hrun with hv | ⟨n, hn, hv⟩
    · exact ⟨[], g, .stay, rfl, hv, h.stopped, h.released⟩
    · exact ⟨[.device n], _, .step rfl ⟨hn, rfl⟩, rfl, hv, h.stopped, h.released⟩
  | close =>
    obtain rfl : t = { s with closed := true } := hs
    exact ⟨[], g, .stay, rfl, h.realizes, h.stopped, h.released⟩
  | main =>
    obtain ⟨main, rfl⟩ := mainStep_eq hs
    exact ⟨[], g, .stay, rfl, h.realizes, h.stopped, h.released⟩

/-- No thread fails. -/
theorem ThreadsRealize.advance (h : ThreadsRealize P smpCores g s) (hc : c < coreCount smpCores)
    (hsafe : g.Runs (coreCount smpCores) c → P.Advances (coreCount smpCores) g c) :
    ∃ t, s.threadStep c = .ok t := by
  have hevent {e : Event} {v : Vm} (hrun : runEvent e s.vm = .ok ((), v)) (place : ThreadPlace)
      (counters : BitVec 64 × BitVec 64) :
      ∃ t, (s.event e).map (VmRun.put c place counters) = .ok t := by
    rw [VmRun.event, hrun]
    exact ⟨_, rfl⟩
  unfold VmRun.threadStep
  cases hplace : (s.threads c).place with
  | interrupts =>
    obtain ⟨v, hrun, -⟩ := h.realizes.handleInterrupts hcores hc
    exact hevent (e := .handleInterrupts c) hrun _ _
  | instruction =>
    obtain ⟨i, g', hfetch, hi⟩ := hsafe (h.runs hc (.inr hplace))
    obtain ⟨v, hrun, -⟩ := h.realizes.instruction hcores hc hfetch hi
    exact hevent (e := .instruction c) hrun _ _
  | tick => exact hevent (e := .diskTick) h.realizes.diskTick _ _
  | test | release | count | leave | done => exact ⟨_, rfl⟩

omit hcores in
theorem threadsRealize_start {vm : Vm} (h : Realizes P smpCores g vm) :
    ThreadsRealize P smpCores g (.start vm) :=
  ⟨h, fun _ _ => rfl, fun c hc => by rcases hc with hc | hc <;> cases hc⟩

/-- For every program and any number of cores: while the abstract machine does not get stuck,
every interleaving of the statements of the threads, each in one piece, with interrupts of the
devices at any time, is a run of the abstract machine that executes the same instructions in the
same order, and no thread fails. -/
theorem threads_refine {vm : Vm} (h₀ : Realizes P smpCores g₀ vm)
    (hsafe : ∀ g, Reachable (guestMachine P (coreCount smpCores) g₀) g →
      P.Unstuck (coreCount smpCores) g)
    {labels : List RunLabel} {q : VmRun × List Event}
    (hrun : Run ((vmRun memSize smpCores).logged runEvents) (.start vm, []) labels q) :
    (∃ ls g, Run (guestMachine P (coreCount smpCores) g₀) g₀ ls g ∧ Realizes P smpCores g q.1.vm ∧
      ls.filterMap GuestLabel.core = q.2.filterMap Event.core) ∧
    ∀ c, c < coreCount smpCores → ∃ t, q.1.threadStep c = .ok t := by
  obtain ⟨ls, g, hg, hreal, hcount⟩ :
      ∃ ls g, Run (guestMachine P (coreCount smpCores) g₀) g₀ ls g ∧
        ThreadsRealize P smpCores g q.1 ∧
        ls.filterMap GuestLabel.core = q.2.filterMap Event.core := by
    induction hrun with
    | nil => exact ⟨[], g₀, .nil, threadsRealize_start h₀, rfl⟩
    | snoc hrun hstep ih =>
      obtain ⟨ls, g, hg, hreal, hcount⟩ := ih
      obtain ⟨hs, hlog⟩ := hstep
      obtain ⟨ls', g', hmove, hcount', hreal'⟩ :=
        hreal.step g₀ hcores (fun c _ => hsafe g ⟨g₀, ls, rfl, hg⟩ c) hs
      refine ⟨ls ++ ls', g', hmove.run hg, hreal', ?_⟩
      rw [hlog, List.filterMap_append, List.filterMap_append, hcount, hcount']
  exact ⟨⟨ls, g, hg, hreal.realizes, hcount⟩, fun c hc =>
    hreal.advance hcores hc (hsafe g ⟨g₀, ls, rfl, hg⟩ c)⟩

end Refinement

/-! ## Booting -/

/-- The abstract machine as the threads find it. -/
def Guest.boot (smpCores : ℤ) : Guest where
  cpus := initCpu memSize (coreCount smpCores) (BitVec.ofNat 32 programBase)
  interrupted _ := none
  memory _ := 0
  released c := c = 0
  pending := ∅
  stopped := ∅

section Boot

variable {P : GuestProgram} {vm : Vm} {smpCores : ℤ} {g : Guest}

/-- A machine that has been booted on the code of a program realizes it. -/
theorem boot_realizes (hP : ∀ n, P.handler n = none) {clock : HostClock} {memcheck : Bool}
    {image : DiskImage}
    (h : boot clock memcheck image memSize (P.code.map fun i => i.inst.encode) [] none smpCores =
      .ok vm) : Realizes P smpCores (.boot smpCores) vm := by
  have hinit : (machine memSize smpCores).init vm := ⟨_, _, _, _, _, _, h⟩
  have hbooted := boot_booted (by decide) h
  have hbase : ivtSize * 8 ≤ programBase := by decide
  have hcode := P.code_le
  have hlen : (P.code.map fun i => i.inst.encode).length = P.code.length := List.length_map _
  -- the loader leaves the words of the program, `init_ivt` the vectors below them
  have hload (a : ℕ) (ha : ivtSize * 8 ≤ a) : vm.memory a =
      if programBase ≤ a ∧ a < programBase + (P.code.map fun i => i.inst.encode).length * 8 then
        programByte (P.code.map fun i => i.inst.encode) (a - programBase) else 0 :=
    (hbooted.memory a ha).trans (loadImage_packed _)
  have hlaid : Laid P (coreCount smpCores) (.boot smpCores) vm.memory := by
    refine ⟨fun k i hk => ?_, fun n hn => ?_, fun _ _ _ hsome =>
      absurd hsome (Option.some_ne_none _).symm⟩
    · have hlt := (List.getElem?_eq_some_iff.mp hk).1
      have hdigits := leNat_of_digits (m := vm.memory) (a := programBase + 8 * k) (n := 8)
        (w := i.inst.encode.toNat) fun j hj => ?_
      · exact hdigits.trans (Nat.mod_eq_of_lt i.inst.encode.isLt)
      · have hoffset : programBase + 8 * k + j - programBase = 8 * k + j := by omega
        rw [hload _ (by omega), if_pos (by omega), hoffset, programByte_digit _ k hj,
          List.getD_eq_getElem?_getD, List.getElem?_map, hk]
        rfl
    · rw [ivtEntry_toNat hn, hbooted.vectors _ hn, GuestProgram.vector, hP]
  have hpending : vm.pendingSet = ∅ := by
    refine Set.eq_empty_of_forall_notMem ?_
    rintro ⟨c, n⟩ ⟨-, -, hbit⟩
    rw [Vm.pending, hbooted.bitmap] at hbit
    cases hbit.symm.trans BitVec.getLsbD_zero
  refine ⟨reachable_inv (.of_init hinit), hbooted.cpus, fun x hx => ?_, hlaid, fun _ => rfl,
    fun _ => ⟨fun _ => rfl, fun _ => rfl⟩, fun _ _ hsome =>
      absurd hsome (Option.some_ne_none _).symm, hbooted.released, hpending, ?_, ?_,
    .inl hbooted.diskWorker⟩
  · have hlo := hx.1
    rw [hload x (by omega), if_neg (by omega)]
    rfl
  · rw [hbooted.halted]
    exact ⟨fun htrue => Bool.noConfusion htrue, fun hne => absurd hne Set.not_nonempty_empty⟩
  · rw [hbooted.disk]
    exact ⟨rfl, rfl⟩

/-- The program with another handler. -/
def GuestProgram.withHandler (P : GuestProgram) (n : ℕ) (entry : BitVec 32) : GuestProgram :=
  { P with handler := Function.update P.handler n (some entry) }

/-- `register_isr` installs a handler of the program. -/
theorem Realizes.registerIsr (hcores : coreCount smpCores ≤ 64) (h : Realizes P smpCores g vm)
    {n : BitVec 32} (hn : n.toNat < ivtSize) (entry : BitVec 32) :
    ∃ v, runEvent (.registerIsr n (entry.setWidth 64)) vm = .ok ((), v) ∧
      Realizes (P.withHandler n.toNat entry) smpCores g v := by
  have hplain := ivtEntry_plain h.sound hn
  have hto := ivtEntry_toNat hn
  have hivt : ivtSize = 256 := rfl
  have hbase : ivtSize * 8 ≤ programBase := by decide
  have hcode := P.code_le
  have hisr : ((entry.setWidth 64 : BitVec 64).setWidth 32).setWidth 64 = entry.setWidth 64 := by
    simp
  have hrun : runEvent (.registerIsr n (entry.setWidth 64)) vm = .ok ((), vm.withMemory
      (leStore vm.memory (ivtEntry n).toNat 8 (entry.setWidth 64 : BitVec 64).toNat)) := by
    change LampVm.registerIsr n (entry.setWidth 64) vm = _
    rw [LampVm.registerIsr, if_neg (by omega), hisr]
    exact vmWrite64_plain hplain.inRam hplain.inSpace (fun _ => by omega) _
  have habove (x : ℕ) (hx : ivtSize * 8 ≤ x) : leStore vm.memory (ivtEntry n).toNat 8
      (entry.setWidth 64 : BitVec 64).toNat x = vm.memory x := leStore_of_not_mem (by omega)
  have hlaid : Laid (P.withHandler n.toNat entry) (coreCount smpCores) g
      (leStore vm.memory (ivtEntry n).toNat 8 (entry.setWidth 64 : BitVec 64).toNat) := by
    refine ⟨h.laid.code.congr fun x hx _ => habove x (hbase.trans hx), fun m hm => ?_,
      fun c hc cpu hcpu => ?_⟩
    · have hto' := ivtEntry_toNat hm
      by_cases hmn : m.toNat = n.toNat
      · have hvector : (P.withHandler n.toNat entry).vector m.toNat = entry.setWidth 64 := by
          simp only [GuestProgram.vector, GuestProgram.withHandler, hmn, Function.update_self]
        rw [hvector, hto', hmn, ← hto, leNat_leStore]
        exact Nat.mod_eq_of_lt (BitVec.isLt _)
      · have hvector : (P.withHandler n.toNat entry).vector m.toNat = P.vector m.toNat := by
          simp only [GuestProgram.vector, GuestProgram.withHandler, Function.update_of_ne hmn]
        rw [hvector, leNat_leStore_of_disjoint (by omega)]
        exact h.laid.vectors m hm
    · have hsize : isrStackBytes = 8 * (222 + 34) := rfl
      refine (h.laid.saved c hc cpu hcpu).congr fun x h1 h2 => habove x ?_
      rw [savedContext_length] at h2
      rw [← h.cpus] at h1 h2
      exact (isrStack_place hcores h.sound hc (by omega) (by omega)).1
  refine ⟨_, hrun, ⟨h.sound.congr rfl, h.cpus, fun x hx => ?_, hlaid, h.unmasked, h.handling,
    h.savedIp, h.released, h.pending, h.halted, h.disk, h.worker⟩⟩
  have hlo : P.dataStart ≤ x := hx.1
  exact (habove x (by omega)).trans (h.data x hx)

end Boot

/-- The instructions that lead to the next one and work on their core and the data. -/
def Asm.straight : Asm → Bool
  | .mov _ _ | .movi _ _ | .load32 _ _ _ | .store32 _ _ _ | .cmpi _ _ | .cpuid _ | .pause => true
  | _ => false

theorem execute_straight {P : GuestProgram} {N c : ℕ} {g t : Guest} {i : Asm}
    (hi : i.straight = true) (h : P.execute N c (g.fetched c) i = some t) :
    (t.cpus c).ip = ((g.cpus c).fetchIp + 8).toNat ∧ t.pending = g.pending := by
  have hself : (g.fetched c).cpus c = (g.core c).fetched.cpu := Function.update_self ..
  have hgo {s : CoreState} (hip : s.cpu.ip = ((g.fetched c).cpus c).ip) :
      ((((g.fetched c).setCpu c s.cpu).withMemory s.memory).cpus c).ip =
        ((g.cpus c).fetchIp + 8).toNat := by
    change (Function.update (g.fetched c).cpus c s.cpu c).ip = _
    rw [Function.update_self, hip, hself]
    rfl
  cases i with
  | jmp | jump | call | startap | ipi | halt | iret => cases hi
  | mov | movi | load32 | store32 | cmpi | cpuid | pause =>
    simp only [GuestProgram.execute] at h
    split_ifs at h with hw
    obtain ⟨s, hs, rfl⟩ := Option.map_eq_some_iff.mp h
    refine ⟨hgo ?_, rfl⟩
    simp only [Asm.step] at hs
    first
      | obtain rfl := Option.some.inj hs
        rfl
      | split_ifs at hs
        obtain rfl := Option.some.inj hs
        rfl

theorem guestStep_released {P : GuestProgram} {N d : ℕ} {g₀ g t : Guest} {l : GuestLabel}
    (h : (guestMachine P N g₀).step g l t) (hd : g.released d = true) : t.released d = true := by
  cases l with
  | instruction c =>
    obtain ⟨-, i, -, hexec⟩ := h
    exact (execute_flags (g := g.fetched c) hexec).2 d hd
  | interrupt c n =>
    obtain ⟨-, -, -, rfl⟩ := h
    rw [(enter_flags _ _).2.1]
    exact hd
  | device n =>
    obtain ⟨-, rfl⟩ := h
    exact hd

/-- An instruction of the core alone. -/
theorem execute_of_step {P : GuestProgram} {N c : ℕ} {g : Guest} {i : Asm} {s : CoreState}
    (hw : P.Within (g.cpus c) i) (hstep : i.step (g.core c) = some s) :
    P.execute N c g i = some ((g.setCpu c s.cpu).withMemory s.memory) := by
  cases i with
  | startap rd rs => cases hstep
  | ipi rd rs => cases hstep
  | halt => cases hstep
  | iret => cases hstep
  | mov | movi | load32 | store32 | cmpi | jmp | jump | call | cpuid | pause =>
    simp only [GuestProgram.execute, if_pos hw, hstep, Option.map_some]

end LampVm
