import LampVm.WordThreads

/-!
# Guest programs whose loads and stores overlap

When no two cores of the abstract machine are about to touch the same bytes with one of them
storing, nobody can tell that the bytes go one at a time: every interleaving is a run of the
abstract machine, in which an instruction takes place when its last byte is there.
-/
namespace LampVm

open ByteOrder Contract Transition

/-- What the abstract machine says of a state in which accesses may be under way. -/
structure WordsAgree (P : GuestProgram) (smpCores : ℤ) (g : Guest) (s : WordRun) : Prop where
  cpus : ∀ c, s.access c = none → s.run.vm.cpus c = g.cpus c
  data : ∀ x, P.InData x → (∀ c w, s.access c = some w → ¬ w.Stored x) →
    s.run.vm.memory x = g.memory x
  pending : s.run.vm.pendingSet = g.pending
  released : s.run.vm.coreReleased = g.released
  halted : s.run.vm.halted = true ↔ g.stopped.Nonempty
  realizes : (∀ c, s.access c = none) → Realizes P smpCores g s.run.vm

section Refinement

variable {P : GuestProgram} {smpCores : ℤ} {g g₀ : Guest} {s : WordRun} {vm : Vm}

theorem WordsRealize.agree (h : WordsRealize P smpCores g s) : WordsAgree P smpCores g s := by
  refine ⟨fun c hc => ?_, h.data, h.threads.realizes.pending, h.threads.realizes.released,
    h.threads.realizes.halted, fun hnone => ?_⟩
  · rw [h.threads.realizes.cpus, ahead_cpus hc]
  · have hreal := h.threads.realizes
    rw [ahead_of_idle hnone] at hreal
    exact hreal.congr_memory fun x hx => h.data x hx fun c w hw => by
      rw [hnone c] at hw
      cases hw

theorem wordsRealize_start (h : Realizes P smpCores g vm) (hbounds : CacheBounds vm) :
    WordsRealize P smpCores g (.start vm) := by
  have hidle (c : ℕ) (w : WordAccess) (hw : (WordRun.start vm).access c = some w) : False := by
    cases hw
  refine ⟨?_, hbounds, fun c w hw => (hidle c w hw).elim, fun x hx _ => h.data x hx⟩
  change ThreadsRealize P smpCores (g.ahead (fun _ => none) vm.memory) (.start vm)
  rw [ahead_of_idle fun _ => rfl]
  exact threadsRealize_start (h.congr_memory fun _ _ => rfl)

/-- For every program and any number of cores, while the abstract machine does not get stuck: every
interleaving of the statements of the threads, each in one piece, with interrupts of the devices at
any time, is a run of the abstract machine that executes the same instructions in the same order,
and no thread fails. If the abstract machine has no races, this holds as well when loads and stores
overlap in any way, byte by byte: whatever is not under way is as in the abstract machine, no access
goes astray through the lookup cache, and every thread that is left to run comes to the next
instruction or interrupt of its core. -/
theorem guest_machine_refines (hcores : coreCount smpCores ≤ 64)
    (hvm : Reachable (machine memSize smpCores) vm) (h₀ : Realizes P smpCores g₀ vm)
    (hsafe : ∀ g, Reachable (guestMachine P (coreCount smpCores) g₀) g →
      P.Unstuck (coreCount smpCores) g) :
    (∀ labels q, Run ((vmRun memSize smpCores).logged runEvents) (.start vm, []) labels q →
      (∃ ls g, Run (guestMachine P (coreCount smpCores) g₀) g₀ ls g ∧
        Realizes P smpCores g q.1.vm ∧ ls.filterMap GuestLabel.core = q.2.filterMap Event.core) ∧
      ∀ c, c < coreCount smpCores → ∃ t, q.1.threadStep c = .ok t) ∧
    ((∀ g, Reachable (guestMachine P (coreCount smpCores) g₀) g →
        P.RaceFree (coreCount smpCores) g) →
      ∀ labels q, Run ((wordRun smpCores).logged wordEvents) (.start vm, []) labels q →
        (∃ ls g, Run (guestMachine P (coreCount smpCores) g₀) g₀ ls g ∧
          WordsAgree P smpCores g q.1 ∧ ls.filterMap GuestLabel.core = q.2.filterMap Event.core ∧
          ∀ c, g.Runs (coreCount smpCores) c → q.1.InLoop c →
            GoesOn P smpCores g₀ g q c (WordsAgree P smpCores)) ∧
        ∀ c, c < coreCount smpCores → (q.1.run.threads c).place ≠ .done →
          ∃ l t, l.thread = some c ∧ (wordRun smpCores).step q.1 l t) := by
  refine ⟨fun labels q hrun => threads_refine hcores h₀ hsafe hrun, fun hrace labels q hrun => ?_⟩
  obtain ⟨ls, g, hg, hreal, hcount⟩ :
      ∃ ls g, Run (guestMachine P (coreCount smpCores) g₀) g₀ ls g ∧
        WordsRealize P smpCores g q.1 ∧
        ls.filterMap GuestLabel.core = q.2.filterMap Event.core := by
    induction hrun with
    | nil => exact ⟨[], g₀, .nil, wordsRealize_start h₀ (cacheBounds_of_reachable hvm), rfl⟩
    | snoc hrun hstep ih =>
      obtain ⟨ls, g, hg, hreal, hcount⟩ := ih
      obtain ⟨hs, hlog⟩ := hstep
      obtain ⟨ls', g', hmove, hcount', hreal', -⟩ :=
        hreal.step g₀ hcores (hsafe g ⟨g₀, ls, rfl, hg⟩) (hrace g ⟨g₀, ls, rfl, hg⟩) hs
      refine ⟨ls ++ ls', g', hmove.run hg, hreal', ?_⟩
      rw [hlog, List.filterMap_append, List.filterMap_append, hcount, hcount']
  have hreach : Reachable (guestMachine P (coreCount smpCores) g₀) g := ⟨g₀, ls, rfl, hg⟩
  refine ⟨⟨ls, g, hg, hreal.agree, hcount, fun c hruns hloop => ?_⟩, fun c hc hdone =>
    hreal.exists_step hcores (hsafe g hreach) hc hdone⟩
  exact (hreal.goes_on g₀ hcores (hsafe g hreach) (hrace g hreach) hruns hloop q.2).imp
    fun g' t ht => ht.1.agree

end Refinement

/-! ## Two cores -/

def pingEntry (k : ℕ) : BitVec 32 := BitVec.ofNat 32 (programBase + 8 * k)

/-- Core 0 starts core 1, stores a word and sends an interrupt to core 1, whose handler loads it. -/
def ping : GuestProgram where
  code := [.movi 1 1, .movi 2 (pingEntry 10), .startap 1 2, .movi 6 (pingEntry 15), .movi 5 65,
    .store32 5 6 0, .movi 3 5, .ipi 1 3, .pause, .jmp (pingEntry 8),
    .pause, .jmp (pingEntry 10),
    .movi 6 (pingEntry 15), .load32 7 6 0, .iret]
  dataStart := programBase + 8 * 15
  dataEnd := programBase + 8 * 15 + 4
  handler n := if n = 5 then some (pingEntry 12) else none
  code_le := le_rfl
  order := Nat.le_add_right _ _
  dataEnd_le := by decide

/-- What the registers hold in front of instruction `k`. -/
def pingKnows (k : ℕ) (cpu : Vcpu) : Prop :=
  match k with
  | 1 | 3 | 6 => cpu.regs 1 = 1
  | 7 => cpu.regs 1 = 1 ∧ cpu.regs 3 = 5
  | 2 => cpu.regs 1 = 1 ∧ cpu.regs 2 = pingEntry 10
  | 4 => cpu.regs 1 = 1 ∧ cpu.regs 6 = pingEntry 15
  | 5 => cpu.regs 1 = 1 ∧ cpu.regs 6 = pingEntry 15 ∧ cpu.regs 5 = 65
  | 13 => cpu.regs 6 = pingEntry 15
  | 14 => cpu.regs 7 = 65
  | _ => True

/-- The core is about to execute instruction `k`. -/
structure PingAt (k : ℕ) (cpu : Vcpu) : Prop where
  ip : cpu.fetchIp.toNat = programBase + 8 * k
  lt : k < 15
  bsp : k ≤ 9 → cpu.isBsp = true
  knows : pingKnows k cpu

/-- Core 0 stores the word before it sends the interrupt, and core 1 is in the handler only behind
that. -/
structure PingInv (g : Guest) : Prop where
  goes : g.stopped = ∅
  first : ∃ k, PingAt k (g.cpus 0) ∧ k ≤ 9 ∧ (g.released 1 = true ↔ 3 ≤ k) ∧
    (k ≤ 7 → (1, 5) ∉ g.pending ∧ g.interrupted 1 = none) ∧
    (6 ≤ k → leNat g.memory (pingEntry 15).toNat 4 = 65)
  alone : g.interrupted 0 = none ∧ (0, 5) ∉ g.pending
  second : g.released 1 = true → ∃ k, PingAt k (g.cpus 1) ∧ 10 ≤ k ∧
    (12 ≤ k → g.interrupted 1 ≠ none)
  saved : ∀ cpu, g.interrupted 1 = some cpu → ∃ k, PingAt k cpu ∧ 10 ≤ k ∧ k ≤ 11

section Ping

variable {g : Guest} {c k : ℕ} {cpu cpu' : Vcpu}

theorem setReg_regs (cpu : Vcpu) (r : Fin regCount) (v : BitVec 32) (n : Fin regCount) :
    (cpu.setReg r v).regs n = if n = r then v else cpu.regs n := Function.update_apply ..

theorem pingEntry_toNat (hk : k < 16) : (pingEntry k).toNat = programBase + 8 * k := by
  have hbase : programBase = 0x201C := rfl
  rw [pingEntry, BitVec.toNat_ofNat, Nat.mod_eq_of_lt (by omega)]

theorem PingAt.code {i : Asm} (h : PingAt k cpu) (hfetch : ping.Fetches cpu i) :
    ping.code[k]? = some i := by
  obtain ⟨k', hk', hip⟩ := hfetch
  have hat := h.ip
  obtain rfl : k = k' := by omega
  exact hk'

/-- A jump. -/
theorem pingAt_jump (hk : k < 15) (hip : cpu.ip = (pingEntry k).toNat)
    (hbsp : k ≤ 9 → cpu.isBsp = true) (hknows : pingKnows k cpu) : PingAt k cpu := by
  refine ⟨?_, hk, hbsp, hknows⟩
  rw [Vcpu.fetchIp, hip, BitVec.toNat_ofNat, Nat.mod_eq_of_lt (BitVec.isLt _),
    pingEntry_toNat (by omega)]

theorem PingAt.next_ip (h : PingAt k cpu) (hk : k < 14)
    (hip : cpu'.ip = (cpu.fetchIp + 8).toNat) :
    cpu'.fetchIp.toNat = programBase + 8 * (k + 1) := by
  have hbase : programBase = 0x201C := rfl
  have height : (8 : BitVec 32).toNat = 8 := rfl
  rw [Vcpu.fetchIp, hip, BitVec.toNat_ofNat, Nat.mod_eq_of_lt (BitVec.isLt _), BitVec.toNat_add,
    h.ip, height, Nat.mod_eq_of_lt (by omega)]
  omega

/-- The next instruction. -/
theorem PingAt.next (h : PingAt k cpu) (hk : k < 14) (hip : cpu'.ip = (cpu.fetchIp + 8).toNat)
    (hbsp : cpu'.isBsp = cpu.isBsp) (hknows : pingKnows (k + 1) cpu') : PingAt (k + 1) cpu' := by
  exact ⟨h.next_ip hk hip, by omega, fun hk9 => hbsp.trans (h.bsp (by omega)), hknows⟩

theorem PingAt.unique {j : ℕ} (h : PingAt j cpu) (h' : PingAt k cpu) : j = k := by
  have hj := h.ip
  have hk := h'.ip
  omega

/-- Core 0 goes on to the next instruction or around its loop. -/
theorem PingInv.first_goes (h : PingInv g) (hat : PingAt k (g.cpus 0)) {k' : ℕ}
    (hnext : PingAt k' cpu) (hk : k ≠ 2 ∧ k ≠ 5 ∧ k ≠ 7 ∧ (k' = k + 1 ∧ k < 9 ∨ k = 9 ∧ k' = 8)) :
    PingInv (g.setCpu 0 cpu) := by
  obtain ⟨j, hj, hle, hrel, hquiet, hword⟩ := h.first
  obtain rfl := hj.unique hat
  exact ⟨h.goes, ⟨k', (Guest.setCpu_cpus g 0 cpu).symm ▸ hnext, by omega, hrel.trans (by omega),
    fun hk7 => hquiet (by omega), fun hk6 => hword (by omega)⟩, h.alone, h.second, h.saved⟩

/-- Core 1 goes on. -/
theorem PingInv.second_goes (h : PingInv g) (hnext : PingAt k cpu) (hk : 10 ≤ k)
    (hinside : 12 ≤ k → g.interrupted 1 ≠ none) : PingInv (g.setCpu 1 cpu) :=
  ⟨h.goes, h.first, h.alone,
    fun _ => ⟨k, (Guest.setCpu_cpus g 1 cpu).symm ▸ hnext, hk, hinside⟩, h.saved⟩

/-- Core 0 starts core 1. -/
theorem PingInv.start (h : PingInv g) (hat : PingAt 2 (g.cpus 0)) (hnext : PingAt 3 cpu) :
    PingInv ((g.setCpu 0 cpu).start 2 0 1 (pingEntry 10)) := by
  obtain ⟨k, hk, hle, -, hquiet, hword⟩ := h.first
  obtain rfl := hk.unique hat
  have hbsp : ((g.setCpu 0 cpu).cpus 0).isBsp = true := by
    rw [Guest.setCpu_cpus]
    exact hnext.bsp (by decide)
  rw [Guest.start, if_pos ⟨hbsp, by decide⟩]
  exact ⟨h.goes, ⟨3, (Guest.setCpu_cpus g 0 cpu).symm ▸ hnext, by decide,
    ⟨fun _ => le_rfl, fun _ => rfl⟩, fun _ => hquiet (by decide), fun h => by omega⟩, h.alone,
    fun _ => ⟨10, pingAt_jump (by decide) rfl (fun h => by omega) trivial, le_rfl,
      fun h => by omega⟩, h.saved⟩

/-- Core 0 stores the word. -/
theorem PingInv.store (h : PingInv g) (hat : PingAt 5 (g.cpus 0)) (hnext : PingAt 6 cpu) :
    PingInv ((g.setCpu 0 cpu).withMemory (leStore g.memory (pingEntry 15).toNat 4 65)) := by
  obtain ⟨k, hk, hle, hrel, hquiet, -⟩ := h.first
  obtain rfl := hk.unique hat
  exact ⟨h.goes, ⟨6, (Guest.setCpu_cpus g 0 cpu).symm ▸ hnext, by decide, hrel.trans (by omega),
    fun _ => hquiet (by decide), fun _ => leNat_leStore _ _ _ _⟩, h.alone, h.second, h.saved⟩

/-- Core 0 sends the interrupt. -/
theorem PingInv.send (h : PingInv g) (hat : PingAt 7 (g.cpus 0)) (hnext : PingAt 8 cpu)
    (n : BitVec 32) : PingInv ((g.setCpu 0 cpu).raise 2 1 n) := by
  obtain ⟨k, hk, hle, hrel, -, hword⟩ := h.first
  obtain rfl := hk.unique hat
  refine ⟨h.goes, ⟨8, (Guest.setCpu_cpus g 0 cpu).symm ▸ hnext, by decide, hrel.trans (by omega),
    fun h => by omega, fun _ => hword (by decide)⟩, ⟨h.alone.1, ?_⟩, h.second, h.saved⟩
  rintro (hold | ⟨hzero, -⟩)
  · exact h.alone.2 hold
  · cases hzero

/-- `IRET` leads core 1 back into its loop. -/
theorem PingInv.resume (h : PingInv g) (hinside : g.interrupted 1 ≠ none) (cpu : Vcpu) :
    PingInv ((g.setCpu 1 cpu).resume 1) := by
  obtain ⟨saved, hsaved⟩ := Option.ne_none_iff_exists'.mp hinside
  obtain ⟨k, hk, hlo, hhi⟩ := h.saved saved hsaved
  obtain ⟨j, hj, hle, hrel, hquiet, hword⟩ := h.first
  have hsome : (g.setCpu 1 cpu).interrupted 1 = some saved := hsaved
  rw [Guest.resume, hsome]
  refine ⟨h.goes, ⟨j, hj, hle, hrel, fun hj7 => absurd (hquiet hj7).2 hinside, hword⟩, h.alone,
    fun _ => ⟨k, ⟨hk.ip, hk.lt, fun h => by omega, hk.knows⟩, hlo, fun h => by omega⟩,
    fun u hu => ?_⟩
  replace hu : Function.update g.interrupted 1 none 1 = some u := hu
  rw [Function.update_self] at hu
  cases hu

/-- An instruction that works on the core and the data. -/
theorem ping_instruction {i : Asm} {s : CoreState} (hi : ping.code[k]? = some i)
    (hip : (g.cpus c).fetchIp.toNat = programBase + 8 * k)
    (hwithin : ping.Within (g.core c).fetched.cpu i) (hstep : i.step (g.core c).fetched = some s)
    (hs : PingInv ((g.setCpu c s.cpu).withMemory s.memory)) :
    ∃ i t, ping.Fetches (g.cpus c) i ∧ ping.execute 2 c (g.fetched c) i = some t ∧ PingInv t := by
  have hself : (g.fetched c).cpus c = (g.core c).fetched.cpu := Guest.setCpu_cpus ..
  have hexec := execute_of_step (N := 2) (c := c) (g := g.fetched c) (i := i) (s := s)
    (P := ping) (by rwa [hself]) (by rwa [Guest.core_fetched])
  refine ⟨i, _, ⟨k, hi, hip⟩, hexec, ?_⟩
  rwa [Guest.fetched, Guest.setCpu, Guest.setCpu, Function.update_idem]

theorem PingInv.first_instruction (h : PingInv g) : ∃ i t, ping.Fetches (g.cpus 0) i ∧
    ping.execute 2 0 (g.fetched 0) i = some t ∧ PingInv t := by
  obtain ⟨k, hk, hle, -⟩ := h.first
  have hknows := hk.knows
  have hip : (g.core 0).fetched.cpu.ip = ((g.cpus 0).fetchIp + 8).toNat := rfl
  have hregs : (g.core 0).fetched.cpu.regs = (g.cpus 0).regs := rfl
  have hself : (g.fetched 0).cpus 0 = (g.core 0).fetched.cpu := Guest.setCpu_cpus ..
  interval_cases k
  · exact ping_instruction (i := .movi 1 1) rfl hk.ip trivial rfl (h.first_goes hk
      (hk.next (by decide) hip rfl (by simp [pingKnows, setReg_regs])) (by decide))
  · exact ping_instruction (i := .movi 2 (pingEntry 10)) rfl hk.ip trivial rfl (h.first_goes hk
      (hk.next (by decide) hip rfl (by simpa [pingKnows, setReg_regs, hregs] using hknows))
      (by decide))
  · obtain ⟨h1, h2⟩ : (g.cpus 0).regs 1 = 1 ∧ (g.cpus 0).regs 2 = pingEntry 10 := hknows
    refine ⟨.startap 1 2, _, ⟨2, rfl, hk.ip⟩, rfl, ?_⟩
    rw [hself, hregs, h1, h2]
    exact h.start hk (hk.next (by decide) hip rfl h1)
  · exact ping_instruction (i := .movi 6 (pingEntry 15)) rfl hk.ip trivial rfl (h.first_goes hk
      (hk.next (by decide) hip rfl (by simpa [pingKnows, setReg_regs, hregs] using hknows))
      (by decide))
  · exact ping_instruction (i := .movi 5 65) rfl hk.ip trivial rfl (h.first_goes hk
      (hk.next (by decide) hip rfl (by simpa [pingKnows, setReg_regs, hregs] using hknows))
      (by decide))
  · obtain ⟨h1, h6, h5⟩ : (g.cpus 0).regs 1 = 1 ∧ (g.cpus 0).regs 6 = pingEntry 15 ∧
      (g.cpus 0).regs 5 = 65 := hknows
    have hcell : PlainCell ((g.core 0).fetched.cpu.regs 6 + 0) 4 := by
      rw [hregs, h6]
      decide
    refine ping_instruction (i := .store32 5 6 0) rfl hk.ip ?_ (if_pos hcell) ?_
    · change ping.dataStart ≤ ((g.core 0).fetched.cpu.regs 6 + 0).toNat ∧ _
      rw [hregs, h6]
      decide
    · rw [hregs, h6, h5]
      exact h.store hk (hk.next (by decide) hip rfl h1)
  · exact ping_instruction (i := .movi 3 5) rfl hk.ip trivial rfl (h.first_goes hk
      (hk.next (by decide) hip rfl (by simpa [pingKnows, setReg_regs, hregs] using hknows))
      (by decide))
  · refine ⟨.ipi 1 3, _, ⟨7, rfl, hk.ip⟩, rfl, ?_⟩
    have h1 : (g.cpus 0).regs 1 = 1 := hknows.1
    rw [hself, hregs, h1]
    exact h.send hk (hk.next (by decide) hip rfl trivial) _
  · exact ping_instruction (i := .pause) rfl hk.ip trivial rfl (h.first_goes hk
      (hk.next (by decide) hip rfl trivial) (by decide))
  · exact ping_instruction (i := .jmp (pingEntry 8)) rfl hk.ip trivial rfl (h.first_goes hk
      (pingAt_jump (k := 8) (by decide) rfl (fun _ => hk.bsp (by decide)) trivial) (by decide))

theorem PingInv.second_instruction (h : PingInv g) (hreleased : g.released 1 = true) :
    ∃ i t, ping.Fetches (g.cpus 1) i ∧ ping.execute 2 1 (g.fetched 1) i = some t ∧ PingInv t := by
  obtain ⟨k, hk, hlo, hinside⟩ := h.second hreleased
  have hlt := hk.lt
  have hknows := hk.knows
  have hip : (g.core 1).fetched.cpu.ip = ((g.cpus 1).fetchIp + 8).toNat := rfl
  have hregs : (g.core 1).fetched.cpu.regs = (g.cpus 1).regs := rfl
  interval_cases k
  · exact ping_instruction (i := .pause) rfl hk.ip trivial rfl (h.second_goes
      (hk.next (by decide) hip rfl trivial) (by decide) (by omega))
  · exact ping_instruction (i := .jmp (pingEntry 10)) rfl hk.ip trivial rfl (h.second_goes
      (pingAt_jump (k := 10) (by decide) rfl (fun h => by omega) trivial) (by decide) (by omega))
  · exact ping_instruction (i := .movi 6 (pingEntry 15)) rfl hk.ip trivial rfl (h.second_goes
      (hk.next (by decide) hip rfl (by simp [pingKnows, setReg_regs])) (by decide)
      fun _ => hinside (by decide))
  · have h6 : (g.cpus 1).regs 6 = pingEntry 15 := hknows
    have hcell : PlainCell ((g.core 1).fetched.cpu.regs 6 + 0) 4 := by
      rw [hregs, h6]
      decide
    have hword : leNat g.memory (pingEntry 15).toNat 4 = 65 := by
      obtain ⟨j, -, -, -, hquiet, hword⟩ := h.first
      exact hword (by
        by_contra hj
        exact hinside (by decide) (hquiet (by omega)).2)
    refine ping_instruction (i := .load32 7 6 0) rfl hk.ip ?_ (if_pos hcell) ?_
    · change ping.dataStart ≤ ((g.core 1).fetched.cpu.regs 6 + 0).toNat ∧ _
      rw [hregs, h6]
      decide
    · refine h.second_goes (hk.next (by decide) hip rfl ?_) (by decide) fun _ => hinside (by decide)
      change ((g.core 1).fetched.cpu.setReg 7 _).regs 7 = 65
      rw [setReg_regs, if_pos rfl, hregs, h6]
      exact congrArg (BitVec.ofNat 32) hword
  · exact ⟨.iret, _, ⟨14, rfl, hk.ip⟩, rfl, h.resume (hinside (by decide)) _⟩

/-- A vector is taken back. -/
theorem PingInv.cleared (h : PingInv g) {waiting : Set (ℕ × ℕ)} (hsub : waiting ⊆ g.pending) :
    PingInv { g with pending := waiting } := by
  obtain ⟨k, hk, hle, hrel, hquiet, hword⟩ := h.first
  exact ⟨h.goes,
    ⟨k, hk, hle, hrel, fun hk7 => ⟨fun hp => (hquiet hk7).1 (hsub hp), (hquiet hk7).2⟩, hword⟩,
    ⟨h.alone.1, fun hp => h.alone.2 (hsub hp)⟩, h.second, h.saved⟩

/-- Only core 1 enters the handler, and only behind the store of core 0. -/
theorem PingInv.enter (h : PingInv g) (hruns : g.Runs 2 c) (hidle : g.interrupted c = none) {n : ℕ}
    (hpending : (c, n) ∈ g.pending) :
    PingInv (ping.enter c n { g with pending := g.pending \ {(c, n)} }) := by
  have hcleared := h.cleared (Set.sdiff_subset (s := g.pending) (t := {(c, n)}))
  unfold GuestProgram.enter
  by_cases hn : n = 5
  · subst hn
    obtain ⟨hc, hreleased, -⟩ := hruns
    have hc1 : c = 1 := by
      have hc0 : c ≠ 0 := by
        rintro rfl
        exact h.alone.2 hpending
      omega
    subst hc1
    obtain ⟨k, hk, hlo, hinside⟩ := h.second (hreleased.resolve_left one_ne_zero)
    have hk12 : k < 12 := by
      by_contra hge
      exact hinside (by omega) hidle
    obtain ⟨j, hj, hle, hrel, hquiet, hword⟩ := hcleared.first
    have hj7 : ¬ j ≤ 7 := by
      obtain ⟨j', hj', -, -, hquiet', -⟩ := h.first
      obtain rfl := hj'.unique hj
      exact fun hj7 => (hquiet' hj7).1 hpending
    rw [show ping.handler 5 = some (pingEntry 12) from rfl]
    refine ⟨h.goes, ⟨j, hj, hle, hrel, fun h7 => absurd h7 hj7, hword⟩, hcleared.alone, fun _ =>
      ⟨12, ?_, by decide, fun _ => ?_⟩, fun saved hsaved => ?_⟩
    · change PingAt 12 (Function.update g.cpus 1 _ 1)
      rw [Function.update_self]
      exact pingAt_jump (by decide) rfl (fun h => by omega) trivial
    · change Function.update g.interrupted 1 _ 1 ≠ none
      rw [Function.update_self]
      exact Option.some_ne_none _
    · change Function.update g.interrupted 1 _ 1 = some saved at hsaved
      rw [Function.update_self] at hsaved
      exact ⟨k, Option.some.inj hsaved ▸ hk, hlo, by omega⟩
  · rw [show ping.handler n = none from if_neg hn]
    exact hcleared

/-- The devices send other vectors. -/
theorem PingInv.device (h : PingInv g) {n : BitVec 32} (hn : n = intSerial ∨ n = intTimer) :
    PingInv (g.raise 2 0 n) := by
  obtain ⟨k, hk, hle, hrel, hquiet, hword⟩ := h.first
  have hn5 : n.toNat ≠ 5 := by
    rcases hn with rfl | rfl <;> decide
  refine ⟨h.goes, ⟨k, hk, hle, hrel, fun hk7 => ⟨?_, (hquiet hk7).2⟩, hword⟩, ⟨h.alone.1, ?_⟩,
    h.second, h.saved⟩
  · rintro (hold | ⟨hone, -⟩)
    · exact (hquiet hk7).1 hold
    · cases hone
  · rintro (hold | ⟨-, -, hfive, -⟩)
    · exact h.alone.2 hold
    · exact hn5 hfive

theorem PingInv.instruction (h : PingInv g) (hruns : g.Runs 2 c) : ∃ i t,
    ping.Fetches (g.cpus c) i ∧ ping.execute 2 c (g.fetched c) i = some t ∧ PingInv t := by
  obtain ⟨hc, hreleased, -⟩ := hruns
  obtain rfl | rfl : c = 0 ∨ c = 1 := by omega
  · exact h.first_instruction
  · exact h.second_instruction (hreleased.resolve_left one_ne_zero)

theorem ping_reachable (h : Reachable (guestMachine ping 2 (.boot 2)) g) : PingInv g := by
  refine h.invariant (P := PingInv) ?_ ?_
  · rintro g rfl
    exact ⟨rfl, ⟨0, pingAt_jump (by decide) rfl (fun _ => rfl) trivial, by decide, by decide,
      fun _ => ⟨Set.notMem_empty _, rfl⟩, fun h => by omega⟩, ⟨rfl, Set.notMem_empty _⟩,
      (fun h => by cases h), (fun cpu h => by cases h)⟩
  · intro g l t hg hstep
    cases l with
    | instruction c =>
      obtain ⟨hruns, i, hfetch, hexec⟩ := hstep
      obtain ⟨i', t', hfetch', hexec', ht⟩ := hg.instruction hruns
      obtain rfl := hfetch.unique hfetch'
      obtain rfl := Option.some.inj (hexec.symm.trans hexec')
      exact ht
    | interrupt c n =>
      obtain ⟨hruns, hidle, hpending, rfl⟩ := hstep
      exact hg.enter hruns hidle hpending
    | device n =>
      obtain ⟨hn, rfl⟩ := hstep
      exact hg.device hn

theorem PingInv.unstuck (h : PingInv g) : ping.Unstuck 2 g := by
  intro c hruns
  obtain ⟨i, t, hfetch, hexec, -⟩ := h.instruction hruns
  exact ⟨i, t, hfetch, hexec⟩

/-- The loads and stores of the program. -/
theorem ping_words {i : Asm} {op : WordOp} {a : BitVec 32} (hk : k < 15)
    (hi : ping.code[k]? = some i) (hw : i.word cpu = some (op, a)) :
    k = 5 ∨ k = 13 ∧ op.stores = false := by
  interval_cases k
  all_goals obtain rfl := Option.some.inj hi
  case «5» => exact .inl rfl
  case «13» =>
    obtain ⟨rfl, -⟩ := Prod.mk.inj (Option.some.inj hw)
    exact .inr ⟨rfl, rfl⟩
  all_goals cases hw

theorem ping_startap {rd rs : Fin regCount} (hk : k < 15)
    (hi : ping.code[k]? = some (.startap rd rs)) : k = 2 ∧ rd = 1 := by
  interval_cases k
  all_goals have h := Option.some.inj hi
  case «2» =>
    injection h with hrd hrs
    exact ⟨rfl, hrd.symm⟩
  all_goals cases h

/-- Where a core is that runs. -/
theorem PingInv.position (h : PingInv g) (hruns : g.Runs 2 c) :
    (c = 0 ∨ c = 1) ∧ ∃ k, PingAt k (g.cpus c) ∧ (c = 0 → k ≤ 9) ∧
      (c = 1 → 10 ≤ k ∧ (12 ≤ k → g.interrupted 1 ≠ none)) := by
  obtain ⟨hc, hreleased, -⟩ := hruns
  obtain rfl | rfl : c = 0 ∨ c = 1 := by omega
  · obtain ⟨k, hk, hle, -⟩ := h.first
    exact ⟨.inl rfl, k, hk, fun _ => hle, fun h => by cases h⟩
  · obtain ⟨k, hk, hlo, hinside⟩ := h.second (hreleased.resolve_left one_ne_zero)
    exact ⟨.inr rfl, k, hk, (fun h => by cases h), fun _ => ⟨hlo, hinside⟩⟩

/-- When core 0 is about to store the word core 1 is not in the handler, and when it is about to
start core 1 that one does not run. -/
theorem PingInv.raceFree (h : PingInv g) : ping.RaceFree 2 g := by
  obtain ⟨k, hk, -, hrel, hquiet, -⟩ := h.first
  constructor
  · intro c d i j op op' a b hcd hc hd hi hj hw hu hstores
    obtain ⟨hc01, l, hl, -, hsecond⟩ := h.position hc
    obtain ⟨hd01, m, hm, hfirst, hsecond'⟩ := h.position hd
    obtain rfl | ⟨-, hload⟩ := ping_words hl.lt (hl.code hi) hw
    · obtain rfl : c = 0 := by omega
      obtain rfl : d = 1 := by omega
      obtain rfl := hk.unique hl
      obtain rfl | ⟨rfl, -⟩ := ping_words hm.lt (hm.code hj) hu
      · have hm10 := (hsecond' rfl).1
        omega
      · exact absurd (hquiet (by decide)).2 ((hsecond' rfl).2 (by decide))
    · rw [hload] at hstores
      cases hstores
  · intro c d rd rs hc hd hi hbsp htarget
    obtain ⟨hc01, l, hl, -, hsecond⟩ := h.position hc
    obtain ⟨rfl, rfl⟩ := ping_startap hl.lt (hl.code hi)
    obtain rfl : c = 0 := by omega
    obtain rfl := hk.unique hl
    have h1 : (g.cpus 0).regs 1 = 1 := hk.knows.1
    rw [h1] at htarget
    obtain rfl : d = 1 := by
      have hone : (1 : BitVec 32).toInt = 1 := rfl
      omega
    have hreleased := hd.2.1.resolve_left one_ne_zero
    have hle := hrel.mp hreleased
    omega

/-- `STARTAP` changes the core that it starts. -/
theorem start_beside {N c d : ℕ} (g : Guest) (target : ℤ) (entry : BitVec 32) (h : target ≠ d) :
    (g.start N c target entry).cpus d = g.cpus d ∧
      (g.start N c target entry).pending = g.pending := by
  rw [Guest.start]
  split_ifs
  · have hne : d ≠ target.toNat := by omega
    exact ⟨Function.update_of_ne hne _ _, rfl⟩
  · exact ⟨rfl, rfl⟩

theorem ping_straight {i : Asm} (hk : k < 15) (hk2 : k ≠ 2)
    (hstraight : k ≠ 7 ∧ k ≠ 9 ∧ k ≠ 11 ∧ k ≠ 14) (hi : ping.code[k]? = some i) :
    i.straight = true := by
  interval_cases k
  all_goals obtain rfl := Option.some.inj hi
  all_goals first | rfl | omega

/-- Where a core is behind an instruction that does not jump and sends nothing. -/
theorem PingInv.follows (h : PingInv g) {t : Guest} (ht : PingInv t) (hruns : t.Runs 2 c)
    (hk : PingAt k (g.cpus c)) (hstraight : k ≠ 7 ∧ k ≠ 9 ∧ k ≠ 11 ∧ k ≠ 14)
    (hstep : (guestMachine ping 2 (.boot 2)).step g (.instruction c) t) :
    PingAt (k + 1) (t.cpus c) ∧ t.pending = g.pending := by
  obtain ⟨hruns', i, hfetch, hexec⟩ := hstep
  have hlt := hk.lt
  have hi := hk.code hfetch
  obtain ⟨hip, hpending⟩ : (t.cpus c).ip = ((g.cpus c).fetchIp + 8).toNat ∧
      t.pending = g.pending := by
    by_cases hk2 : k = 2
    · subst hk2
      obtain rfl : i = .startap 1 2 := (Option.some.inj hi).symm
      obtain ⟨hc01, l, hl, -, hsecond⟩ := h.position hruns'
      obtain rfl := hk.unique hl
      obtain rfl : c = 0 := by omega
      have hself : (g.fetched 0).cpus 0 = (g.core 0).fetched.cpu := Guest.setCpu_cpus ..
      have h1 : (g.cpus 0).regs 1 = 1 := hk.knows.1
      have hregs : ((g.fetched 0).cpus 0).regs 1 = 1 := by rwa [hself]
      obtain rfl := Option.some.inj hexec
      obtain ⟨hcpu, hpending⟩ := start_beside (N := 2) (c := 0) (d := 0) (g.fetched 0)
        (((g.fetched 0).cpus 0).regs 1).toInt (((g.fetched 0).cpus 0).regs 2)
        (by rw [hregs]; decide)
      refine ⟨?_, hpending⟩
      rw [hcpu, hself]
      rfl
    · exact execute_straight (ping_straight hlt hk2 hstraight hi) hexec
  refine ⟨?_, hpending⟩
  obtain ⟨-, j, hj, -⟩ := ht.position hruns
  obtain rfl : j = k + 1 := by
    have hnext := hk.next_ip (by omega) hip
    have hat := hj.ip
    omega
  exact hj

/-- A run of the threads in which core `c` is to go on. -/
structure PingRun (c : ℕ) (g : Guest) (s : WordRun) : Prop where
  realizes : WordsRealize ping 2 g s
  reach : Reachable (guestMachine ping 2 (.boot 2)) g
  runs : g.Runs 2 c
  loop : s.InLoop c

theorem PingRun.inv {s : WordRun} (h : PingRun c g s) : PingInv g := ping_reachable h.reach

/-- The core alone comes to a step. -/
theorem PingRun.goes_on {p : WordRun × List Event} (h : PingRun c g p.1) :
    ∃ labels r l t, Run ((wordRun 2).logged wordEvents) p labels r ∧
      (∀ m ∈ labels, m.thread = some c) ∧ l.thread = some c ∧
      (guestMachine ping 2 (.boot 2)).step g l t ∧
      (p.1.access c = none → (p.1.run.threads c).place ≠ .instruction → g.interrupted c = none →
        (∃ n, (c, n) ∈ g.pending) → ∃ n, l = .interrupt c n) ∧
      PingRun c t r.1 ∧ r.1.access c = none := by
  have hcores : coreCount 2 = 2 := by decide
  obtain ⟨labels, r, l, t, hrun, hlabels, hl, hstep, hprompt, hreal, haccess, hloop⟩ :=
    h.realizes.goes_on (.boot 2) (by decide) (by rw [hcores]; exact h.inv.unstuck)
      (by rw [hcores]; exact h.inv.raceFree) (by rw [hcores]; exact h.runs) h.loop p.2
  rw [hcores] at hstep
  have hreach := h.reach.step hstep
  have hstopped : t.stopped = ∅ := (ping_reachable hreach).goes
  have hreleased := h.runs.2.1.imp_right (guestStep_released hstep)
  refine ⟨labels, r, l, t, hrun, hlabels, hl, hstep, hprompt, ⟨hreal, hreach, ⟨h.runs.1, hreleased,
    ?_⟩, hloop (hreal.halted.mpr ?_)⟩, haccess⟩
  · rw [hstopped]
    exact Set.notMem_empty c
  · rw [hstopped]
    exact Set.not_nonempty_empty

/-- It executes its instruction, where nothing is pending for it. -/
theorem PingRun.executes {p : WordRun × List Event} (h : PingRun c g p.1)
    (hnone : ∀ n, (c, n) ∉ g.pending) :
    ∃ labels r t, Run ((wordRun 2).logged wordEvents) p labels r ∧
      (∀ m ∈ labels, m.thread = some c) ∧
      (guestMachine ping 2 (.boot 2)).step g (.instruction c) t ∧ PingRun c t r.1 ∧
      r.1.access c = none := by
  obtain ⟨labels, r, l, t, hrun, hlabels, hl, hstep, -, hr, haccess⟩ := h.goes_on
  cases l with
  | device n => cases hl
  | interrupt d n =>
    obtain rfl : d = c := Option.some.inj hl
    exact absurd hstep.2.2.1 (hnone n)
  | instruction d =>
    obtain rfl : d = c := Option.some.inj hl
    exact ⟨labels, r, t, hrun, hlabels, hstep, hr, haccess⟩

/-- A thread leaves the others where they are. -/
theorem wordRun_others {smpCores : ℤ} {p r : WordRun × List Event} {labels : List WordLabel} {d : ℕ}
    (hrun : Run ((wordRun smpCores).logged wordEvents) p labels r)
    (hlabels : ∀ m ∈ labels, m.thread = some c) (hd : d ≠ c) :
    r.1.run.threads d = p.1.run.threads d ∧ r.1.access d = p.1.access d := by
  induction hrun with
  | nil => exact ⟨rfl, rfl⟩
  | snoc _ hs ih =>
    obtain ⟨hthread, haccess⟩ := ih fun m hm => hlabels m (List.mem_append_left _ hm)
    obtain ⟨hthread', haccess'⟩ := wordStep_others hs.1
      (hlabels _ (List.mem_append_right _ (List.mem_singleton_self _))) hd
    exact ⟨hthread'.trans hthread, haccess'.trans haccess⟩

variable {vm : Vm}

/-- Core 0 alone comes as far as its `IPI`. -/
theorem ping_first (hvm : Reachable (machine memSize 2) vm) (h : Realizes ping 2 (.boot 2) vm)
    (hk : k ≤ 7) : ∃ labels r g, Run ((wordRun 2).logged wordEvents) (.start vm, []) labels r ∧
      (∀ m ∈ labels, m.thread = some 0) ∧ PingRun 0 g r.1 ∧ PingAt k (g.cpus 0) ∧
      g.pending = ∅ := by
  induction k with
  | zero =>
    have hhalted : vm.halted = false := by
      rw [← Bool.not_eq_true]
      exact fun htrue => Set.not_nonempty_empty (h.halted.mp htrue)
    have hloop : (WordRun.start vm).InLoop 0 :=
      ⟨Bool.or_eq_false_iff.mpr ⟨hhalted, rfl⟩, (fun h => by cases h), (fun h => by cases h)⟩
    exact ⟨[], _, .boot 2, .nil, (fun _ hm => by cases hm),
      ⟨wordsRealize_start h (cacheBounds_of_reachable hvm), .of_init rfl,
        ⟨by decide, .inl rfl, Set.notMem_empty 0⟩, hloop⟩,
      pingAt_jump (by decide) rfl (fun _ => rfl) trivial, rfl⟩
  | succ k ih =>
    obtain ⟨labels, r, g, hrun, hlabels, hr, hat, hempty⟩ := ih (by omega)
    obtain ⟨labels', r', t, hrun', hlabels', hstep, hr', -⟩ :=
      hr.executes fun n => hempty ▸ Set.notMem_empty _
    obtain ⟨hat', hpending⟩ := hr.inv.follows hr'.inv hr'.runs hat (by omega) hstep
    refine ⟨labels ++ labels', r', t, hrun.trans hrun', fun m hm => ?_, hr', hat',
      hpending.trans hempty⟩
    exact (List.mem_append.mp hm).elim (hlabels m) (hlabels' m)

/-- Its `IPI` makes vector 5 pending for core 1, which it has started. -/
theorem ping_sent (hvm : Reachable (machine memSize 2) vm) (h : Realizes ping 2 (.boot 2) vm) :
    ∃ labels r g, Run ((wordRun 2).logged wordEvents) (.start vm, []) labels r ∧
      PingRun 1 g r.1 ∧ r.1.access 1 = none ∧ (r.1.run.threads 1).place = .test ∧
      g.interrupted 1 = none ∧ g.pending = {(1, 5)} := by
  obtain ⟨labels, r, g, hrun, hlabels, hr, hat, hempty⟩ := ping_first hvm h le_rfl
  obtain ⟨labels', r', t, hrun', hlabels', hstep, hr', -⟩ :=
    hr.executes fun n => hempty ▸ Set.notMem_empty _
  obtain ⟨k, hk, -, hreleased, hquiet, -⟩ := hr.inv.first
  obtain rfl := hk.unique hat
  obtain ⟨hthread, haccess⟩ := wordRun_others (hrun.trans hrun') (d := 1)
    (fun m hm => (List.mem_append.mp hm).elim (hlabels m) (hlabels' m)) one_ne_zero
  have hplace : (r'.1.run.threads 1).place = .test := congrArg CpuThread.place hthread
  obtain ⟨-, i, hfetch, hexec⟩ := hstep
  obtain rfl : i = .ipi 1 3 := (Option.some.inj (hat.code hfetch)).symm
  obtain rfl := Option.some.inj hexec
  obtain ⟨h1, h3⟩ : (g.cpus 0).regs 1 = 1 ∧ (g.cpus 0).regs 3 = 5 := hat.knows
  have hself : (g.fetched 0).cpus 0 = (g.core 0).fetched.cpu := Guest.setCpu_cpus ..
  have hregs : ((g.fetched 0).cpus 0).regs = (g.cpus 0).regs := by
    rw [hself]
    rfl
  refine ⟨labels ++ labels', r', _, hrun.trans hrun', ⟨hr'.realizes, hr'.reach,
    ⟨by decide, .inr (hreleased.mpr (by decide)), ?_⟩, ⟨hr'.loop.goes, ?_, ?_⟩⟩, haccess, hplace,
    (hquiet le_rfl).2, ?_⟩
  · rw [hr'.inv.goes]
    exact Set.notMem_empty 1
  · rw [hplace]
    decide
  · rw [hplace]
    decide
  · rw [hregs, h1, h3]
    ext ⟨c, n⟩
    constructor
    · rintro (hold | ⟨hc, -, hn, -⟩)
      · exact absurd (hempty ▸ hold) (Set.notMem_empty _)
      · have hone : (1 : BitVec 32).toInt = 1 := rfl
        obtain rfl : c = 1 := by omega
        obtain rfl : n = 5 := hn.symm
        rfl
    · rintro ⟨⟩
      exact .inr ⟨rfl, by decide, rfl, by decide⟩

/-- The handler of core 1 loads what core 0 has stored. -/
theorem ping_run (hvm : Reachable (machine memSize 2) vm) (h : Realizes ping 2 (.boot 2) vm) :
    ∃ labels r, Run ((wordRun 2).logged wordEvents) (.start vm, []) labels r ∧
      r.1.access 1 = none ∧ (r.1.run.vm.cpus 1).fetchIp = pingEntry 14 ∧
      (r.1.run.vm.cpus 1).regs 7 = 65 := by
  obtain ⟨labels, r, g, hrun, hr, haccess, hplace, hidle, hpending⟩ := ping_sent hvm h
  obtain ⟨labels₁, r₁, l, g₁, hrun₁, -, -, hstep₁, hprompt, hr₁, -⟩ := hr.goes_on
  obtain ⟨n, rfl⟩ := hprompt haccess (by rw [hplace]; decide) hidle ⟨5, by rw [hpending]; rfl⟩
  obtain ⟨hat₁, hempty₁⟩ : PingAt 12 (g₁.cpus 1) ∧ g₁.pending = ∅ := by
    obtain ⟨-, -, hmem, rfl⟩ := hstep₁
    rw [hpending] at hmem
    obtain rfl : n = 5 := congrArg Prod.snd hmem
    rw [(enter_flags _ _).2.2, GuestProgram.enter,
      show ping.handler 5 = some (pingEntry 12) from rfl]
    refine ⟨?_, by rw [hpending]; exact Set.sdiff_self⟩
    change PingAt 12 (Function.update g.cpus 1 _ 1)
    rw [Function.update_self]
    exact pingAt_jump (by decide) rfl (fun h => by omega) trivial
  obtain ⟨labels₂, r₂, g₂, hrun₂, -, hstep₂, hr₂, -⟩ :=
    hr₁.executes fun n => hempty₁ ▸ Set.notMem_empty _
  obtain ⟨hat₂, hempty₂⟩ := hr₁.inv.follows hr₂.inv hr₂.runs hat₁ (by decide) hstep₂
  obtain ⟨labels₃, r₃, g₃, hrun₃, -, hstep₃, hr₃, haccess₃⟩ :=
    hr₂.executes fun n => (hempty₂.trans hempty₁) ▸ Set.notMem_empty _
  obtain ⟨hat₃, -⟩ := hr₂.inv.follows hr₃.inv hr₃.runs hat₂ (by decide) hstep₃
  refine ⟨_, r₃, ((hrun.trans hrun₁).trans hrun₂).trans hrun₃, haccess₃, ?_⟩
  rw [hr₃.realizes.agree.cpus 1 haccess₃]
  refine ⟨BitVec.eq_of_toNat_eq ?_, hat₃.knows⟩
  rw [hat₃.ip, pingEntry_toNat (by decide)]

/-- The machine booted on the program, with its handler registered. -/
theorem ping_boot : ∃ vm, Reachable (machine memSize 2) vm ∧ Realizes ping 2 (.boot 2) vm := by
  obtain ⟨vm, hboot⟩ := boot_total (M := memSize) ⟨fun _ => 0, fun _ => 0, 0⟩ false
    ⟨0, fun _ => 0⟩ (ping.code.map fun i => i.inst.encode) [] none 2 (by decide) (by decide)
  have hinit : (machine memSize 2).init vm := ⟨_, _, _, _, _, _, hboot⟩
  have hbare : Realizes { ping with handler := fun _ => none } 2 (.boot 2) vm :=
    boot_realizes (fun _ => rfl) hboot
  obtain ⟨v, hrun, hv⟩ := hbare.registerIsr (by decide) (n := 5) (by decide) (pingEntry 12)
  have hping : GuestProgram.withHandler { ping with handler := fun _ => none }
      (5 : BitVec 32).toNat (pingEntry 12) = ping := by
    have hhandler : Function.update (fun _ => none) (5 : BitVec 32).toNat (some (pingEntry 12)) =
        ping.handler := by
      funext n
      exact Function.update_apply ..
    rw [GuestProgram.withHandler, hhandler]
  rw [hping] at hv
  exact ⟨v, (Reachable.of_init hinit).step (l := .registerIsr _ _) ⟨trivial, hrun⟩, hv⟩

end Ping

/-- However the two threads take their bytes, core 1 loads what core 0 has stored, and there is a
run in which it does. -/
theorem guest_machine_refines_ping : ∃ vm, Reachable (machine memSize 2) vm ∧
    Realizes ping 2 (.boot 2) vm ∧
    (∀ labels q, Run ((wordRun 2).logged wordEvents) (.start vm, []) labels q →
      (∃ ls g, Run (guestMachine ping (coreCount 2) (.boot 2)) (.boot 2) ls g ∧
        WordsAgree ping 2 g q.1 ∧ ls.filterMap GuestLabel.core = q.2.filterMap Event.core ∧
        ∀ c, g.Runs (coreCount 2) c → q.1.InLoop c →
          GoesOn ping 2 (.boot 2) g q c (WordsAgree ping 2)) ∧
      (∀ c, c < coreCount 2 → (q.1.run.threads c).place ≠ .done →
        ∃ l t, l.thread = some c ∧ (wordRun 2).step q.1 l t) ∧
      (q.1.run.vm.coreReleased 1 = true → q.1.access 1 = none →
        (q.1.run.vm.cpus 1).fetchIp = pingEntry 14 → (q.1.run.vm.cpus 1).regs 7 = 65)) ∧
    ∃ labels q, Run ((wordRun 2).logged wordEvents) (.start vm, []) labels q ∧
      q.1.access 1 = none ∧ (q.1.run.vm.cpus 1).fetchIp = pingEntry 14 ∧
      (q.1.run.vm.cpus 1).regs 7 = 65 := by
  have hcores : coreCount 2 = 2 := by decide
  obtain ⟨vm, hvm, h⟩ := ping_boot
  obtain ⟨-, hall⟩ := guest_machine_refines (by decide) hvm h fun g hg => by
    rw [hcores] at hg ⊢
    exact (ping_reachable hg).unstuck
  refine ⟨vm, hvm, h, fun labels q hq => ?_, ping_run hvm h⟩
  obtain ⟨⟨ls, g, hg, hagree, hcount, hgoes⟩, hnext⟩ := hall (fun g hg => by
    rw [hcores] at hg ⊢
    exact (ping_reachable hg).raceFree) labels q hq
  refine ⟨⟨ls, g, hg, hagree, hcount, hgoes⟩, hnext, fun hreleased hidle hip => ?_⟩
  rw [hagree.released] at hreleased
  rw [hagree.cpus 1 hidle] at hip ⊢
  rw [hcores] at hg
  obtain ⟨k, hk, -⟩ := (ping_reachable ⟨_, ls, rfl, hg⟩).second hreleased
  obtain rfl : k = 14 := by
    have hat := hk.ip
    rw [hip, pingEntry_toNat (by decide)] at hat
    omega
  exact hk.knows

end LampVm
