import LampVm.ReadFailure
import LampVm.SyscallConvention
import LampVm.TimeErrors

/-!
# What system calls write

The kernel and its tasks share one memory. Each system call stores to the ranges that its
arguments name, and to the mailbox; which of its bytes, depends on how it ends. The variables and
stacks of the kernel are in the same memory, and change at any time. This is followed through
every run: any other byte that is not what it was has been stored by a task, or by a call that
was given its address.
-/
namespace LampVm

open ByteOrder Transition

/-! ## Memories that agree -/

/-- Nothing outside `R` differs. -/
def ChangesOnly (R : Set ℕ) (m m' : Bytes) : Prop := ∀ x, x ∉ R → m' x = m x

namespace ChangesOnly

variable {R S : Set ℕ} {m m' m'' : Bytes}

protected theorem refl (R : Set ℕ) (m : Bytes) : ChangesOnly R m m := fun _ _ => rfl

protected theorem trans (h : ChangesOnly R m m') (h' : ChangesOnly R m' m'') :
    ChangesOnly R m m'' := fun x hx => (h' x hx).trans (h x hx)

theorem mono (h : ChangesOnly R m m') (hR : R ⊆ S) : ChangesOnly S m m' :=
  fun x hx => h x fun hin => hx (hR hin)

theorem leStore {a n : ℕ} (hR : Set.Ico a (a + n) ⊆ R) (m : Bytes) (v : ℕ) :
    ChangesOnly R m (leStore m a n v) := by
  intro x hx
  refine leStore_of_not_mem ?_
  by_contra hin
  exact hx (hR ⟨by omega, by omega⟩)

theorem storeBytes {a : ℕ} {src : List (BitVec 8)} (hR : Set.Ico a (a + src.length) ⊆ R)
    (m : Bytes) : ChangesOnly R m (storeBytes m a src) := fun _ hx => if_neg fun hin => hx (hR hin)

end ChangesOnly

/-! ## The ranges of the calls -/

/-- `len` bytes of a caller, as far as they are in the memory. -/
def userRange (addr : BitVec 32) (len : ℕ) : Set ℕ :=
  {x | addr ≠ 0 ∧ addr.toNat ≤ x ∧ x < addr.toNat + len ∧ x < kernelMemSize.toNat}

/-- The `revents` of the entries of a poll. -/
def reventsRange (fdsAddr nfds : BitVec 32) : Set ℕ :=
  {x | ∃ i < nfds.toNat, x ∈ Set.Ico (fdsAddr.toNat + pollfdSize * i + 6)
    (fdsAddr.toNat + pollfdSize * i + 8)}

/-- Bytes that change only when a call succeeds, by its value. -/
def Round.onSuccess (round : Round) (R : BitVec 32 → Set ℕ) : Set ℕ :=
  {x | ∃ v, round = .inl ⟨v, .ok⟩ ∧ x ∈ R v}

/-- The bytes that a call may have changed when it ends in this way, or waits. -/
def Sys.writes (regs : SyscallRegs) (round : Round) : Sys → Set ℕ
  | .waitpid => round.onSuccess fun _ => userRange regs.arg1 4
  | .nanosleep | .clockGettime | .clockGetres => round.onSuccess fun _ => userRange regs.arg1 8
  | .read => round.onSuccess fun n => userRange regs.arg1 n.toNat
  | .poll => {x | regs.arg0 ≠ 0 ∧ x ∈ reventsRange regs.arg0 regs.arg1 ∧ x < kernelMemSize.toNat}
  | .select => userRange regs.arg1 4 ∪ userRange regs.arg2 4 ∪ userRange regs.arg3 4
  | .gettimeofday => userRange regs.arg0 8 ∪ userRange regs.arg1 8
  | _ => ∅

/-- The bytes that a call of these registers may change. -/
def callWrites (regs : SyscallRegs) (round : Round) : Set ℕ :=
  {x | ∃ c, sysOfNr regs.nr = some c ∧ x ∈ c.writes regs round}

/-- The bytes that a step may change. -/
def CallState.writes (s : CallState) (l : CallLabel) : Set ℕ :=
  match s.round l with
  | some (regs, (.inl r, _), _) => {x | InMailbox x} ∪ callWrites regs (.inl r)
  | some (regs, (.inr place, _), _) => callWrites regs (.inr place)
  | none =>
    match l with
    | .nullCall => {x | InMailbox x}
    | .store memory => {x | memory x ≠ s.data.memory x}
    | _ => ∅

/-- A step of a kernel whose own variables and stacks are the bytes of `K`. It may change these in
any way; no task stores to them, and no pointer of a call leads to them. -/
structure SharedStep (K : Set ℕ) (s : CallState) (l : CallLabel) (t : CallState) : Prop where
  allowed : l.allowed
  disjoint : ∀ x ∈ s.writes l, x ∉ K
  memory : ChangesOnly K (s.next l).data.memory t.data.memory
  rest : t = { s.next l with data := (s.next l).data.setMemory t.data.memory }

def sharedRuns (K : Set ℕ) : System CallState CallLabel where
  init := syscallRuns.init
  step := SharedStep K

/-! ## Accesses to the caller's memory -/

section Access

variable {addr v first second : BitVec 32} {memory memory' : Bytes}

theorem Ico_subset_userRange {len : BitVec 32} {a n k : ℕ} (h : abiPtrRangeOk addr len = true)
    (ha : addr.toNat ≤ a) (hn : a + n ≤ addr.toNat + len.toNat) (hk : a + n ≤ addr.toNat + k) :
    Set.Ico a (a + n) ⊆ userRange addr k := by
  obtain ⟨hne, -, hle⟩ := abiPtrRangeOk_iff.mp h
  intro x hx
  exact ⟨hne, ha.trans hx.1, hx.2.trans_le hk, hx.2.trans_le (hn.trans hle)⟩

theorem userRange_mono {k n : ℕ} (h : k ≤ n) : userRange addr k ⊆ userRange addr n := by
  rintro x ⟨hne, hle, hlt, hmem⟩
  exact ⟨hne, hle, by omega, hmem⟩

theorem changes_write32 (h : abiUserWrite32 addr v memory = some memory') :
    ChangesOnly (userRange addr 4) memory memory' := by
  unfold abiUserWrite32 at h
  split_ifs at h with hok
  obtain rfl := Option.some.inj h
  exact .leStore (Ico_subset_userRange hok le_rfl le_rfl le_rfl) _ _

theorem changes_writePair (h : abiUserWritePair addr first second memory = some memory') :
    ChangesOnly (userRange addr 8) memory memory' := by
  unfold abiUserWritePair at h
  split_ifs at h with hok
  obtain rfl := Option.some.inj h
  obtain ⟨-, -, hle⟩ := abiPtrRangeOk_iff.mp hok
  have hsize : kernelMemSize.toNat = 67108864 := rfl
  have height : (8 : BitVec 32).toNat = 8 := rfl
  have hnext : (addr + 4).toNat = addr.toNat + 4 := by
    rw [BitVec.toNat_add]
    change (_ + 4) % _ = _
    omega
  rw [hnext]
  refine .trans (.leStore (n := 4) (Ico_subset_userRange hok le_rfl ?_ ?_) _ _)
    (.leStore (n := 4) (Ico_subset_userRange hok ?_ ?_ ?_) _ _) <;> omega

theorem changes_writeSet (h : writeSet addr v memory = some memory') :
    ChangesOnly (userRange addr 4) memory memory' := by
  unfold writeSet at h
  split_ifs at h with hne
  · exact changes_write32 h
  · exact Option.some.inj h ▸ .refl _ _

end Access

/-! ## `SYS_READ` -/

section Read

variable {fd bufAddr len flags copied : BitVec 32} {n : ℕ} {memory : Bytes} {s : IoState}

/-- The loop for `/dev/zero` changes the bytes that it counts. -/
theorem changes_readZeros (hbuf : abiPtrRangeOk bufAddr len = true)
    (hle : copied.toNat ≤ len.toNat) (memory : Bytes) :
    copied.toNat ≤ (readZeros bufAddr len n copied memory).1.ret.toNat ∧
      ChangesOnly (Set.Ico (bufAddr.toNat + copied.toNat)
        (bufAddr.toNat + (readZeros bufAddr len n copied memory).1.ret.toNat)) memory
        (readZeros bufAddr len n copied memory).2 := by
  induction n generalizing copied memory with
  | zero => exact ⟨le_rfl, .refl _ _⟩
  | succ n ih =>
    rw [readZeros]
    by_cases hlt : copied < len
    · obtain ⟨hne, hsum⟩ := chunkSize_spec hlt
      have hlength := List.length_replicate (n := (chunkSize len copied).toNat)
        (a := (0 : BitVec 8))
      have hstored : abiUserWriteBytes (bufAddr + copied)
          (List.replicate (chunkSize len copied).toNat 0) memory = _ :=
        abiUserWriteBytes_within hbuf (List.ne_nil_of_length_pos (by omega)) (by omega) memory
      have hnext : (copied + chunkSize len copied).toNat =
          copied.toNat + (chunkSize len copied).toNat := by
        rw [BitVec.toNat_add, Nat.mod_eq_of_lt (by omega)]
      rw [if_pos hlt]
      dsimp only
      rw [hstored]
      dsimp only
      obtain ⟨hret, hrest⟩ := ih (hnext ▸ hsum) (storeBytes memory
        (bufAddr.toNat + copied.toNat) (List.replicate (chunkSize len copied).toNat 0))
      rw [hnext] at hret hrest
      refine ⟨by omega, .trans (.storeBytes ?_ memory) (hrest.mono ?_)⟩
      · rw [hlength]
        exact Set.Ico_subset_Ico_right (by omega)
      · exact Set.Ico_subset_Ico_left (by omega)
    · rw [if_neg hlt]
      exact ⟨le_rfl, .refl _ _⟩

theorem consoleRead_bytes (len : BitVec 32) (nonblock : Bool) (t : Tty) :
    (consoleRead len nonblock t).1 = consoleIoBlocked ∨
      (consoleRead len nonblock t).1 = ((consoleRead len nonblock t).2.1.length : ℤ) ∧
        (consoleRead len nonblock t).2.1.length ≤ len.toNat := by
  have hblocked (t : Tty) : (consoleReadBlocked nonblock t).1 = consoleIoBlocked ∨
      (consoleReadBlocked nonblock t).1 = ((consoleReadBlocked nonblock t).2.1.length : ℤ) ∧
        (consoleReadBlocked nonblock t).2.1.length ≤ len.toNat := by
    cases nonblock with
    | true => exact .inr ⟨rfl, Nat.zero_le _⟩
    | false => exact .inl rfl
  unfold consoleRead
  dsimp only
  split_ifs
  · exact .inr ⟨rfl, Nat.zero_le _⟩
  · exact hblocked t
  · exact .inr ⟨rfl, readLoop_length_le⟩
  · exact .inr ⟨rfl, Nat.zero_le _⟩
  · exact hblocked _

/-- What a read into `bufAddr` may change, by its result. -/
def readWrites (bufAddr : BitVec 32) (r : SyscallResult) : Set ℕ :=
  Round.onSuccess (.inl r) fun n => userRange bufAddr n.toNat

theorem changes_stored (hbuf : abiPtrRangeOk bufAddr len = true) {src : List (BitVec 8)}
    (hle : src.length ≤ len.toNat) {v : BitVec 32} (hv : v = BitVec.ofNat 32 src.length)
    (memory : Bytes) :
    ChangesOnly (readWrites bufAddr ⟨v, .ok⟩) memory (storeBytes memory bufAddr.toNat src) := by
  have hlen := len.isLt
  have hto : v.toNat = src.length := by
    rw [hv, BitVec.toNat_ofNat]
    omega
  have hsub := Ico_subset_userRange (k := v.toNat) hbuf le_rfl
    (show bufAddr.toNat + src.length ≤ _ by omega) (by omega)
  refine .storeBytes ?_ memory
  intro x hx
  exact ⟨v, rfl, hsub hx⟩

theorem changes_readConsole (hbuf : abiPtrRangeOk bufAddr len = true) (nonblock : Bool)
    (s : IoState) : ChangesOnly
      (readWrites bufAddr (readConsole bufAddr len nonblock len.toNat 0 s).1) s.memory
      (readConsole bufAddr len nonblock len.toNat 0 s).2.memory := by
  by_cases hnothing : s.tty.console.TakesNothing
  · rw [(readConsole_of_nothing hbuf nonblock hnothing).2, readOnce]
    dsimp only
    obtain hblocked | ⟨hrc, hle⟩ := consoleRead_bytes len nonblock s.tty
    · rw [if_pos hblocked]
      exact .refl _ _
    · split_ifs
      · exact .refl _ _
      · exact .refl _ _
      · exact .refl _ _
      · exact changes_stored hbuf hle (by rw [hrc, BitVec.ofInt_natCast]) s.memory
  · rw [readConsole_of_bytes hbuf nonblock hnothing, readStored_zero]
    exact changes_stored hbuf readRounds_bytes_le rfl s.memory

theorem changes_read (fd bufAddr len flags : BitVec 32) (s : IoState) :
    ChangesOnly (readWrites bufAddr (sysRead fd bufAddr len flags s).1) s.memory
      (sysRead fd bufAddr len flags s).2.memory := by
  unfold sysRead
  dsimp only
  split_ifs with hread hlen hrange
  · exact .refl _ _
  · exact .refl _ _
  · exact .refl _ _
  · have hbuf : abiPtrRangeOk bufAddr len = true := not_not.mp (not_or.mp hrange).2
    have hzero : (0 : BitVec 32).toNat ≤ len.toNat := Nat.zero_le _
    obtain ⟨herr, hle⟩ := readZeros_ok (n := len.toNat) hbuf hzero s.memory
    have hsub := Ico_subset_userRange hbuf (a := bufAddr.toNat) le_rfl
      (Nat.add_le_add_left hle _) le_rfl
    refine (changes_readZeros hbuf hzero s.memory).2.mono ?_
    intro x hx
    refine ⟨_, ?_, hsub hx⟩
    generalize readZeros bufAddr len len.toNat 0 s.memory = p at herr
    obtain ⟨⟨v, e⟩, m⟩ := p
    obtain rfl : e = .ok := herr
    rfl
  · exact .refl _ _
  · exact changes_readConsole (not_not.mp (not_or.mp hrange).2) _ s
  · exact .refl _ _

end Read

/-! ## The other calls -/

section Calls

variable {addr : BitVec 32} {memory : Bytes} {stored : Option Bytes} {R : Set ℕ} {d : KernelData}

theorem changes_storeResult (h : ∀ m, stored = some m → ChangesOnly R memory m) :
    ChangesOnly (Round.onSuccess (.inl (storeResult stored memory).1) fun _ => R) memory
      (storeResult stored memory).2 := by
  cases stored with
  | none => exact .refl _ _
  | some m => exact (h m rfl).mono fun x hx => ⟨0, rfl, hx⟩

theorem changes_clockGetres (clockId resAddr : BitVec 32) (memory : Bytes) :
    ChangesOnly (Round.onSuccess (.inl (sysClockGetres clockId resAddr memory).1) fun _ =>
      userRange resAddr 8) memory (sysClockGetres clockId resAddr memory).2 := by
  unfold sysClockGetres
  split_ifs
  · exact changes_storeResult fun m hm => changes_writePair hm
  · exact .refl _ _
  · exact .refl _ _

theorem changes_clockGettime (offset : RealtimeOffset) (raw : RawClocks)
    (clockId tsAddr : BitVec 32) (memory : Bytes) :
    ChangesOnly (Round.onSuccess (.inl (sysClockGettime offset raw clockId tsAddr memory).1)
      fun _ => userRange tsAddr 8) memory (sysClockGettime offset raw clockId tsAddr memory).2 := by
  unfold sysClockGettime
  split_ifs
  · exact .refl _ _
  · split
    · exact .refl _ _
    · split
      · exact .refl _ _
      · exact changes_storeResult fun m hm => changes_writePair hm

theorem changes_gettimeofdayZone (tzAddr : BitVec 32) (memory : Bytes) :
    ChangesOnly (userRange tzAddr 8) memory (gettimeofdayZone tzAddr memory).2 := by
  unfold gettimeofdayZone
  split_ifs
  · split
    · exact .refl _ _
    · rename_i hne _ m hfirst
      refine .trans ((changes_write32 hfirst).mono (userRange_mono (by decide))) ?_
      cases hsecond : abiUserWrite32 (tzAddr + 4) 0 m with
      | none => exact .refl _ _
      | some m' =>
        refine (changes_write32 hsecond).mono ?_
        rintro x ⟨-, hle, hlt, hmem⟩
        have hok : abiPtrRangeOk tzAddr 4 = true := by
          by_contra hnot
          rw [abiUserWrite32, if_neg hnot] at hfirst
          cases hfirst
        obtain ⟨-, -, hroom⟩ := abiPtrRangeOk_iff.mp hok
        have hsize : kernelMemSize.toNat = 67108864 := rfl
        have hnext : (tzAddr + 4).toNat = (tzAddr.toNat + 4) % 2 ^ 32 := BitVec.toNat_add _ _
        exact ⟨hne, by omega, by omega, hmem⟩
  · exact .refl _ _

theorem changes_gettimeofday (offset : RealtimeOffset) (raw : RawClocks)
    (tvAddr tzAddr : BitVec 32) (memory : Bytes) :
    ChangesOnly (userRange tvAddr 8 ∪ userRange tzAddr 8) memory
      (sysGettimeofday offset raw tvAddr tzAddr memory).2 := by
  unfold sysGettimeofday
  split_ifs
  · exact .refl _ _
  · split
    · exact .refl _ _
    · split
      · exact .refl _ _
      · rename_i m hm
        exact .trans ((changes_writePair hm).mono Set.subset_union_left)
          ((changes_gettimeofdayZone tzAddr m).mono Set.subset_union_right)

theorem changes_nanosleep (reqAddr remAddr : BitVec 32) (d : KernelData) :
    ChangesOnly (Round.onSuccess (.inl (sysNanosleep reqAddr remAddr d).1) fun _ =>
      userRange remAddr 8) d.memory (sysNanosleep reqAddr remAddr d).2.memory := by
  unfold sysNanosleep
  split
  · exact .refl _ _
  · rename_i req hreq
    by_cases hvalid : req.valid = true
    · rw [if_neg (not_not.mpr hvalid)]
      split
      · exact .refl _ _
      · rename_i m hm
        have hzero : ChangesOnly (userRange remAddr 8) d.memory m := by
          unfold abiUserWriteTimespecZero at hm
          split_ifs at hm
          · exact Option.some.inj hm ▸ .refl _ _
          · exact changes_writePair hm
        have hperiod : ¬ schedTickPeriodUs = 0 := by decide
        dsimp only
        rw [if_neg hperiod]
        by_cases hnow : req.sec = 0 ∧ req.nsec = 0
        · rw [if_pos hnow]
          exact hzero.mono fun x hx => ⟨0, rfl, hx⟩
        · rw [if_neg hnow]
          exact hzero.mono fun x hx => ⟨0, rfl, hx⟩
    · rw [if_pos hvalid]
      exact .refl _ _

/-- The calls on descriptors store nothing. -/
theorem memory_fcntl (fd cmd arg : BitVec 32) (d : KernelData) :
    (sysFcntl fd cmd arg d).2.memory = d.memory := by
  unfold sysFcntl
  split_ifs <;> rfl

theorem memory_open (pathAddr flags : BitVec 32) (d : KernelData) :
    (sysOpen pathAddr flags d).2.memory = d.memory := by
  unfold sysOpen
  dsimp only
  split_ifs
  · rfl
  · rfl
  · split
    · rfl
    · split <;> rfl
  · rfl

theorem memory_socket (domain type : BitVec 32) (d : KernelData) :
    (sysSocket domain type d).2.memory = d.memory := by
  unfold sysSocket
  split_ifs <;> rfl

theorem memory_ttySetmode (fd lflag : BitVec 32) (d : KernelData) :
    (sysTtySetmode fd lflag d).2.memory = d.memory := by
  unfold sysTtySetmode
  split_ifs <;> rfl

theorem memory_write (fd bufAddr len : BitVec 32) (d : KernelData) :
    (sysWrite fd bufAddr len d).2.memory = d.memory := by
  unfold sysWrite
  dsimp only
  split_ifs <;> rfl

end Calls

/-! ## Calls that wait -/

section Waiting

variable {addr fdsAddr nfds : BitVec 32} {memory : Bytes} {t : Tty} {d : KernelData}
  {regs : SyscallRegs}

/-- An entry is stored with the descriptor and the events that it had. -/
theorem changes_pollfd (p : Pollfd) (a : ℕ) (hp : p = Pollfd.unpack (leNat memory a pollfdSize)) :
    ChangesOnly (Set.Ico (a + 6) (a + 8)) memory
      (leStore memory a pollfdSize (p.visited t).pack) := by
  intro x hx
  have hsize : pollfdSize = 8 := rfl
  by_cases hin : a ≤ x ∧ x < a + pollfdSize
  · rw [leStore, if_pos hin]
    have hlt := leNat_lt memory a pollfdSize
    have hdigit := leNat_digit (m := memory) (a := a) (n := pollfdSize) (i := x - a) (by omega)
    rw [Nat.add_sub_cancel' hin.1] at hdigit
    rw [← hdigit]
    have hsmall : x - a < 6 := by
      by_contra hnot
      exact hx ⟨by omega, by omega⟩
    have hfd : (p.visited t).fd = BitVec.ofNat 32 (leNat memory a pollfdSize) := by
      rw [hp]
      rfl
    have hevents : (p.visited t).events = BitVec.ofNat 16 (leNat memory a pollfdSize / 2 ^ 32) := by
      rw [hp]
      rfl
    apply BitVec.eq_of_toNat_eq
    rw [BitVec.toNat_ofNat, BitVec.toNat_ofNat, Pollfd.pack, hfd, hevents, BitVec.toNat_ofNat,
      BitVec.toNat_ofNat]
    generalize (p.visited t).revents.toNat = revents
    generalize leNat memory a pollfdSize = n
    interval_cases x - a <;> omega
  · exact leStore_of_not_mem (by omega)

theorem changes_pollScan {n i : ℕ}
    (hrange : fdsAddr ≠ 0 ∧ fdsAddr.toNat + pollfdSize * (i + n) ≤ kernelMemSize.toNat)
    (ready : BitVec 32) (memory : Bytes) :
    ChangesOnly {x | ∃ j < i + n, x ∈ Set.Ico (fdsAddr.toNat + pollfdSize * j + 6)
      (fdsAddr.toNat + pollfdSize * j + 8)} memory
      (pollScan fdsAddr t n (BitVec.ofNat 32 i) ready memory).2 := by
  induction n generalizing i ready memory with
  | zero => exact .refl _ _
  | succ n ih =>
    obtain ⟨hne, hle⟩ := hrange
    have hsize : pollfdSize = 8 := rfl
    have hlast : fdsAddr.toNat + pollfdSize * (i + 1) ≤ kernelMemSize.toNat := by
      rw [hsize] at hle ⊢
      omega
    have hrest : fdsAddr.toNat + pollfdSize * (i + 1 + n) ≤ kernelMemSize.toNat := by
      rwa [add_assoc, add_comm 1]
    have hoff := toNat_pollfd hlast
    have hnext : BitVec.ofNat 32 i + 1 = BitVec.ofNat 32 (i + 1) := (BitVec.ofNat_add i 1).symm
    rw [pollScan]
    dsimp only
    by_cases hok : abiPtrRangeOk (fdsAddr + BitVec.ofNat 32 i * BitVec.ofNat 32 pollfdSize)
        (BitVec.ofNat 32 pollfdSize) = true
    · rw [if_neg (not_not.mpr hok), hoff, hnext]
      refine .trans ((changes_pollfd _ _ rfl).mono fun x hx => ⟨i, by omega, hx⟩)
        ((ih ⟨hne, hrest⟩ _ _).mono ?_)
      rintro x ⟨j, hj, hx⟩
      exact ⟨j, by omega, hx⟩
    · rw [if_pos hok]
      exact .refl _ _

theorem memory_readyOrWait (ready timeoutMs startTick : BitVec 32) (waitReadStdin : Bool)
    (next : Waiting) (d : KernelData) :
    (readyOrWait ready timeoutMs startTick waitReadStdin next d).2.memory = d.memory := by
  unfold readyOrWait
  dsimp only
  split_ifs <;> rfl

theorem memory_sleepRound (timeoutMs startTick : BitVec 32) (d : KernelData) :
    (sleepRound timeoutMs startTick d).2.memory = d.memory := by
  unfold sleepRound
  dsimp only
  split_ifs <;> rfl

/-- The entries of a poll lie in the memory. -/
def PollArray (fdsAddr nfds : BitVec 32) : Prop :=
  fdsAddr ≠ 0 ∧ fdsAddr.toNat + pollfdSize * nfds.toNat ≤ kernelMemSize.toNat

theorem changes_pollRound (h : PollArray fdsAddr nfds) (timeoutMs startTick : BitVec 32)
    (d : KernelData) :
    ChangesOnly {x | fdsAddr ≠ 0 ∧ x ∈ reventsRange fdsAddr nfds ∧ x < kernelMemSize.toNat}
      d.memory (pollRound fdsAddr nfds timeoutMs startTick d).2.memory := by
  obtain ⟨hne, hle⟩ := h
  have hscan := changes_pollScan (t := d.tty) (n := nfds.toNat) (i := 0)
    ⟨hne, by rwa [zero_add]⟩ 0 d.memory
  rw [zero_add] at hscan
  have hall : ChangesOnly {x | fdsAddr ≠ 0 ∧ x ∈ reventsRange fdsAddr nfds ∧
      x < kernelMemSize.toNat} d.memory (pollScan fdsAddr d.tty nfds.toNat 0 0 d.memory).2 := by
    refine hscan.mono ?_
    rintro x ⟨i, hi, hx⟩
    refine ⟨hne, ⟨i, hi, hx⟩, hx.2.trans_le (le_trans ?_ hle)⟩
    have hsize : pollfdSize = 8 := rfl
    rw [hsize]
    omega
  unfold pollRound
  generalize pollScan fdsAddr d.tty nfds.toNat 0 0 d.memory = scanned at hall
  obtain ⟨_ | ready, memory⟩ := scanned
  · exact hall
  · dsimp only
    rw [memory_readyOrWait]
    exact hall

theorem changes_writeSets (readAddr writeAddr exceptAddr outRead outWrite : BitVec 32)
    (memory : Bytes) :
    ChangesOnly (userRange readAddr 4 ∪ userRange writeAddr 4 ∪ userRange exceptAddr 4) memory
      (writeSets readAddr writeAddr exceptAddr outRead outWrite memory).2 := by
  have hread : userRange readAddr 4 ⊆
      userRange readAddr 4 ∪ userRange writeAddr 4 ∪ userRange exceptAddr 4 :=
    fun x hx => .inl (.inl hx)
  have hwrite : userRange writeAddr 4 ⊆
      userRange readAddr 4 ∪ userRange writeAddr 4 ∪ userRange exceptAddr 4 :=
    fun x hx => .inl (.inr hx)
  unfold writeSets
  split
  · exact .refl _ _
  · rename_i m hfirst
    have h := (changes_writeSet hfirst).mono hread
    split
    · exact h
    · rename_i m' hsecond
      have h' := h.trans ((changes_writeSet hsecond).mono hwrite)
      split
      · exact h'
      · rename_i m'' hthird
        exact h'.trans ((changes_writeSet hthird).mono Set.subset_union_right)

theorem changes_selectRound (regs : SyscallRegs) (startTick inRead inWrite inExcept : BitVec 32)
    (d : KernelData) :
    ChangesOnly (userRange regs.arg1 4 ∪ userRange regs.arg2 4 ∪ userRange regs.arg3 4) d.memory
      (selectRound regs startTick inRead inWrite inExcept d).2.memory := by
  unfold selectRound
  split
  · exact .refl _ _
  · rename_i out hout
    have hsets := changes_writeSets regs.arg1 regs.arg2 regs.arg3 out.outRead out.outWrite d.memory
    generalize writeSets regs.arg1 regs.arg2 regs.arg3 out.outRead out.outWrite d.memory = stored
      at hsets
    obtain ⟨_ | _, memory⟩ := stored
    · exact hsets
    · dsimp only
      rw [memory_readyOrWait]
      exact hsets

theorem changes_waitpidRetry (pid statusAddr options status : BitVec 32) (s : SyscallState) :
    ChangesOnly {x | ∃ v, (waitpidRetry pid statusAddr options status s).1 = .inl ⟨v, .ok⟩ ∧
      x ∈ userRange statusAddr 4} s.memory
      (waitpidRetry pid statusAddr options status s).2.memory := by
  unfold waitpidRetry
  generalize (if options &&& sysWaitpidWnohang ≠ 0 then schedWaitpidWnohang else 0) = schedOptions
  dsimp only
  split_ifs
  · split
    · exact .refl _ _
    · rename_i m hm
      exact (changes_write32 hm).mono fun x hx => ⟨_, rfl, hx⟩
  all_goals exact .refl _ _

theorem changes_waitpidRound (regs : SyscallRegs) (status : BitVec 32) (d : KernelData) :
    ChangesOnly ((waitpidRound regs status d).1.onSuccess fun _ => userRange regs.arg1 4) d.memory
      (waitpidRound regs status d).2.memory := by
  have h := changes_waitpidRetry (waitpidTarget regs.arg0) regs.arg1 regs.arg2 status
    ⟨d.sched, d.memory⟩
  unfold waitpidRound
  generalize waitpidRetry (waitpidTarget regs.arg0) regs.arg1 regs.arg2 status
    ⟨d.sched, d.memory⟩ = p at h
  obtain ⟨r | status', s⟩ := p
  · refine h.mono ?_
    rintro x ⟨v, hv, hx⟩
    obtain rfl := Sum.inl.inj hv
    exact ⟨v, rfl, hx⟩
  · refine h.mono ?_
    rintro x ⟨v, hv, hx⟩
    cases hv

end Waiting

/-! ## `syscall_dispatch` -/

/-- A waiting call is in the loop of its number. -/
def Waiting.Belongs (regs : SyscallRegs) : Waiting → Prop
  | .waitpid _ => sysOfNr regs.nr = some .waitpid
  | .sleep _ => sysOfNr regs.nr = some .poll
  | .poll _ => sysOfNr regs.nr = some .poll ∧ PollArray regs.arg0 regs.arg1
  | .select _ _ _ _ => sysOfNr regs.nr = some .select

section Dispatch

variable {raw : RawClocks} {regs : SyscallRegs} {d : KernelData} {place : Waiting}

theorem changes_startCall (raw : RawClocks) (regs : SyscallRegs) (d : KernelData) :
    ChangesOnly (callWrites regs (startCall raw regs d).1) d.memory
      (startCall raw regs d).2.memory := by
  have hsome (c : Sys) (hnr : sysOfNr regs.nr = some c) (round : Round) :
      c.writes regs round ⊆ callWrites regs round := fun x hx => ⟨c, hnr, hx⟩
  have hsame (p : Round × KernelData) (hp : p.2.memory = d.memory) :
      ChangesOnly (callWrites regs p.1) d.memory p.2.memory := hp ▸ .refl _ _
  unfold startCall
  split
  case h_7 hnr => exact (changes_nanosleep _ _ _).mono (hsome _ hnr _)
  case h_8 hnr => exact (changes_read _ _ _ _ _).mono (hsome _ hnr _)
  case h_9 => exact hsame _ (memory_write _ _ _ d)
  case h_13 => exact hsame _ (memory_ttySetmode _ _ d)
  case h_14 hnr => exact (changes_clockGettime _ _ _ _ _).mono (hsome _ hnr _)
  case h_15 hnr => exact (changes_gettimeofday _ _ _ _ _).mono (hsome _ hnr _)
  case h_16 hnr => exact (changes_clockGetres _ _ _).mono (hsome _ hnr _)
  case h_21 => exact hsame _ (memory_fcntl _ _ _ d)
  case h_22 => exact hsame _ (memory_open _ _ d)
  case h_23 => exact hsame _ (memory_socket _ _ d)
  all_goals exact hsame _ rfl

theorem pollArray_of_start {fdsAddr nfds timeoutMs startTick : BitVec 32} {x : Sched}
    (h : startPoll fdsAddr nfds timeoutMs x = .inr (.poll startTick)) : PollArray fdsAddr nfds := by
  unfold startPoll at h
  split_ifs at h with hnone hnow hmany hrange
  · cases h
  have hok : abiPtrRangeOk fdsAddr (nfds * BitVec.ofNat 32 pollfdSize) = true :=
    not_not.mp (not_or.mp hrange).2
  obtain ⟨hne, -, hle⟩ := abiPtrRangeOk_iff.mp hok
  have hfew : nfds.toNat ≤ (kernelMemSize / BitVec.ofNat 32 pollfdSize).toNat := not_lt.mp hmany
  have hmax : (kernelMemSize / BitVec.ofNat 32 pollfdSize).toNat = 8388608 := by decide
  have hsize : (BitVec.ofNat 32 pollfdSize).toNat = 8 := rfl
  refine ⟨hne, ?_⟩
  rwa [BitVec.toNat_mul, hsize, Nat.mod_eq_of_lt (by omega), mul_comm nfds.toNat] at hle

theorem belongs_startCall (h : (startCall raw regs d).1 = .inr place) : place.Belongs regs := by
  unfold startCall at h
  split at h
  case h_6 hnr =>
    unfold startWaitpid at h
    split_ifs at h
    obtain rfl := Sum.inr.inj h
    exact hnr
  case h_10 hnr =>
    cases place with
    | poll startTick => exact ⟨hnr, pollArray_of_start h⟩
    | sleep startTick => exact hnr
    | waitpid status =>
      unfold startPoll at h
      dsimp only at h
      split_ifs at h <;> cases h
    | select start inRead inWrite inExcept =>
      unfold startPoll at h
      dsimp only at h
      split_ifs at h <;> cases h
  case h_11 hnr =>
    unfold startSelect at h
    split_ifs at h
    split at h
    · obtain rfl := Sum.inr.inj h
      exact hnr
    · cases h
  all_goals cases h

/-- A loop goes on as the loop that it is. -/
theorem belongs_round (hplace : place.Belongs regs) {next : Waiting}
    (h : (place.round regs d).1 = .inr next) : next.Belongs regs := by
  cases place with
  | waitpid status =>
    change (waitpidRound regs status d).1 = _ at h
    unfold waitpidRound at h
    split at h
    · cases h
    · obtain rfl := Sum.inr.inj h
      exact hplace
  | sleep startTick =>
    change (sleepRound regs.arg2 startTick d).1 = _ at h
    unfold sleepRound at h
    dsimp only at h
    split_ifs at h <;> exact Sum.inr.inj h ▸ hplace
  | poll startTick =>
    change (pollRound regs.arg0 regs.arg1 regs.arg2 startTick d).1 = _ at h
    unfold pollRound at h
    split at h
    · cases h
    · exact readyOrWait_next h ▸ hplace
  | select startTick inRead inWrite inExcept =>
    change (selectRound regs startTick inRead inWrite inExcept d).1 = _ at h
    unfold selectRound at h
    split at h
    · cases h
    · split at h
      · cases h
      · exact readyOrWait_next h ▸ hplace

theorem changes_round (hplace : place.Belongs regs) (d : KernelData) :
    ChangesOnly (callWrites regs (place.round regs d).1) d.memory
      (place.round regs d).2.memory := by
  cases place with
  | waitpid status => exact (changes_waitpidRound regs status d).mono fun x hx => ⟨_, hplace, hx⟩
  | sleep startTick =>
    change ChangesOnly _ _ (sleepRound regs.arg2 startTick d).2.memory
    rw [memory_sleepRound]
    exact .refl _ _
  | poll startTick =>
    exact (changes_pollRound hplace.2 regs.arg2 startTick d).mono fun x hx => ⟨_, hplace.1, hx⟩
  | select startTick inRead inWrite inExcept =>
    exact (changes_selectRound regs startTick inRead inWrite inExcept d).mono
      fun x hx => ⟨_, hplace, hx⟩

end Dispatch

/-! ## Runs -/

section Runs

variable {s t : CallState} {l : CallLabel}

theorem changes_publish (regs : SyscallRegs) (r : SyscallResult) (d : KernelData) :
    ChangesOnly {x | InMailbox x} d.memory (syscallPublishResult regs r d).memory :=
  (publish_untouched regs r d).memory

/-- What is known of the part of a call that a label executes. -/
theorem round_spec {regs : SyscallRegs} {p : Round × KernelData} {rest : List PendingCall}
    (hs : ∀ q ∈ s.pending, q.place.Belongs q.regs) (h : s.round l = some (regs, p, rest)) :
    ChangesOnly (callWrites regs p.1) s.data.memory p.2.memory ∧
      (∀ place, p.1 = .inr place → place.Belongs regs) ∧
      ∀ q ∈ rest, q.place.Belongs q.regs := by
  cases l with
  | call raw regs' =>
    obtain ⟨rfl, rfl, rfl⟩ : regs' = regs ∧ startCall raw regs' s.data = p ∧ s.pending = rest := by
      simpa [CallState.round] using h
    exact ⟨changes_startCall raw regs' s.data, fun place => belongs_startCall, hs⟩
  | resume =>
    unfold CallState.round at h
    cases hpending : s.pending with
    | nil =>
      rw [hpending] at h
      cases h
    | cons q qs =>
      rw [hpending] at h hs
      obtain ⟨rfl, rfl, rfl⟩ : q.regs = regs ∧ q.place.round q.regs s.data = p ∧ qs = rest := by
        simpa using h
      obtain ⟨hq, hqs⟩ := List.forall_mem_cons.mp hs
      exact ⟨changes_round hq s.data, fun place => belongs_round hq, hqs⟩
  | nullCall => cases h
  | sched op => cases h
  | feed ch => cases h
  | store memory => cases h

/-- The step lemma. -/
theorem changes_next (hs : ∀ q ∈ s.pending, q.place.Belongs q.regs) (l : CallLabel) :
    ChangesOnly (s.writes l) s.data.memory (s.next l).data.memory ∧
      ∀ q ∈ (s.next l).pending, q.place.Belongs q.regs := by
  unfold CallState.next CallState.writes
  cases hround : s.round l with
  | some executed =>
    obtain ⟨regs, ⟨r | place, d⟩, rest⟩ := executed
    · obtain ⟨hchanges, -, hrest⟩ := round_spec hs hround
      exact ⟨.trans (hchanges.mono Set.subset_union_right)
        ((changes_publish regs r d).mono Set.subset_union_left), hrest⟩
    · obtain ⟨hchanges, hplace, hrest⟩ := round_spec hs hround
      exact ⟨hchanges, List.forall_mem_cons.mpr ⟨hplace place rfl, hrest⟩⟩
  | none =>
    cases l with
    | call raw regs => cases hround
    | nullCall => exact ⟨changes_publish _ _ _, hs⟩
    | resume => exact ⟨.refl _ _, hs⟩
    | sched op => exact ⟨.refl _ _, hs⟩
    | feed ch => exact ⟨.refl _ _, hs⟩
    | store memory => exact ⟨fun x hx => not_not.mp hx, hs⟩

theorem reachable_belongs {K : Set ℕ} (h : Reachable (sharedRuns K) s) :
    ∀ q ∈ s.pending, q.place.Belongs q.regs := by
  refine h.invariant (P := fun s => ∀ q ∈ s.pending, q.place.Belongs q.regs) ?_ ?_
  · rintro s ⟨hnone, -⟩
    rw [hnone]
    exact List.forall_mem_nil _
  · intro s l t hs hstep
    rw [hstep.rest]
    exact (changes_next hs l).2

/-- What a step changes outside the kernel's own bytes. -/
theorem SharedStep.changes {K : Set ℕ} (hs : ∀ q ∈ s.pending, q.place.Belongs q.regs)
    (h : SharedStep K s l t) : ChangesOnly (s.writes l ∪ K) s.data.memory t.data.memory :=
  .trans ((changes_next hs l).1.mono Set.subset_union_left) (h.memory.mono Set.subset_union_right)

/-- The kernel stores in the memory only, and not at the null pointer. -/
theorem writes_in_memory (hl : ∀ memory, l ≠ .store memory) {x : ℕ} (hx : x ∈ s.writes l) :
    0 < x ∧ x < kernelMemSize.toNat := by
  have hmailbox (hin : InMailbox x) : 0 < x ∧ x < kernelMemSize.toNat := by
    have hsize : kernelMemSize.toNat = 67108864 := rfl
    have haddr : syscallAbiAddr = 3137536 := rfl
    obtain ⟨hle, hlt⟩ := hin
    omega
  have huser {addr : BitVec 32} {len : ℕ} (hin : x ∈ userRange addr len) :
      0 < x ∧ x < kernelMemSize.toNat := by
    obtain ⟨hne, hle, -, hlt⟩ := hin
    exact ⟨(BitVec.toNat_pos_of_ne_zero hne).trans_le hle, hlt⟩
  have hcall {regs : SyscallRegs} {round : Round} (hin : x ∈ callWrites regs round) :
      0 < x ∧ x < kernelMemSize.toNat := by
    obtain ⟨c, -, hin⟩ := hin
    cases c
    case waitpid | nanosleep | read | clockGettime | clockGetres =>
      obtain ⟨v, -, hin⟩ := hin
      exact huser hin
    case poll =>
      obtain ⟨hne, ⟨i, -, hin⟩, hlt⟩ := hin
      have hpos := BitVec.toNat_pos_of_ne_zero hne
      exact ⟨by have := hin.1; omega, hlt⟩
    case select =>
      rcases hin with (hin | hin) | hin
      · exact huser hin
      · exact huser hin
      · exact huser hin
    case gettimeofday => exact hin.elim huser huser
    all_goals exact absurd hin (Set.notMem_empty x)
  unfold CallState.writes at hx
  split at hx
  · exact hx.elim hmailbox hcall
  · exact hcall hx
  · cases l with
    | nullCall => exact hmailbox hx
    | store memory => exact absurd rfl (hl memory)
    | call raw regs => exact absurd hx (Set.notMem_empty x)
    | resume => exact absurd hx (Set.notMem_empty x)
    | sched op => exact absurd hx (Set.notMem_empty x)
    | feed ch => exact absurd hx (Set.notMem_empty x)

end Runs

/-- Whatever byte outside the kernel's own has changed along a run has been changed by a step that
may: a store of a task's own, the mailbox of a call that ended, or a call that was given its
address, and then it lies in the memory and not at the null pointer. -/
theorem syscall_memory_footprint {K : Set ℕ} {s t : CallState} {ls : List CallLabel}
    (hs : Reachable (sharedRuns K) s) (hr : Run (sharedRuns K) s ls t) {x : ℕ} (hK : x ∉ K)
    (hx : t.data.memory x ≠ s.data.memory x) :
    ∃ ls₁ l ls₂ u, ls = ls₁ ++ l :: ls₂ ∧ Run (sharedRuns K) s ls₁ u ∧ x ∈ u.writes l ∧
      ((∀ memory, l ≠ .store memory) → 0 < x ∧ x < kernelMemSize.toNat) := by
  obtain ⟨ls₁, l, ls₂, u, v, hls, hrun, hstep, hne⟩ :=
    hr.exists_change (f := fun s => s.data.memory x) hx
  have hin : x ∈ u.writes l := by
    by_contra hnot
    exact hne (SharedStep.changes (reachable_belongs (hs.run hrun)) hstep x fun hin =>
      hin.elim hnot hK)
  exact ⟨ls₁, l, ls₂, u, hls, hrun, hin, fun hl => writes_in_memory hl hin⟩

/-- A tick changes a variable of the kernel; then `SYS_CLOCK_GETRES` stores a nanosecond. -/
theorem syscall_memory_footprint_getres : ∃ s t,
    Reachable (sharedRuns (Set.Ico 0x400000 0x400004)) s ∧
    Run (sharedRuns (Set.Ico 0x400000 0x400004)) s
      [.sched .tick, .call ⟨0, 0, 0⟩ ⟨14, 0, 0x1000, 0, 0, 0, 0⟩] t ∧
    t.data.memory 0x400000 = 1 ∧
    ∃ ls₁ l ls₂ u, [.sched .tick, .call ⟨0, 0, 0⟩ ⟨14, 0, 0x1000, 0, 0, 0, 0⟩] = ls₁ ++ l :: ls₂ ∧
      Run (sharedRuns (Set.Ico 0x400000 0x400004)) s ls₁ u ∧ 0x1004 ∈ u.writes l ∧
      ((∀ memory, l ≠ .store memory) → 0 < 0x1004 ∧ 0x1004 < kernelMemSize.toNat) := by
  let ticked : CallState := { bootedKernel.next (.sched .tick) with
    data := (bootedKernel.next (.sched .tick)).data.setMemory fun x =>
      if x = 0x400000 then 1 else 0 }
  have htick : SharedStep (Set.Ico 0x400000 0x400004) bootedKernel (.sched .tick) ticked :=
    ⟨trivial, fun _ h => h.elim, fun x hx => if_neg fun h => hx (by rw [h]; decide), rfl⟩
  have hwrites : ticked.writes (.call ⟨0, 0, 0⟩ ⟨14, 0, 0x1000, 0, 0, 0, 0⟩) =
      {x | InMailbox x} ∪ callWrites ⟨14, 0, 0x1000, 0, 0, 0, 0⟩ (.inl ⟨0, .ok⟩) := rfl
  have hcall : SharedStep (Set.Ico 0x400000 0x400004) ticked
      (.call ⟨0, 0, 0⟩ ⟨14, 0, 0x1000, 0, 0, 0, 0⟩)
      (ticked.next (.call ⟨0, 0, 0⟩ ⟨14, 0, 0x1000, 0, 0, 0, 0⟩)) := by
    refine ⟨trivial, ?_, .refl _ _, rfl⟩
    rw [hwrites]
    rintro x hx ⟨hle, -⟩
    rcases hx with hmailbox | ⟨c, hc, hin⟩
    · have haddr : syscallAbiAddr = 3137536 := rfl
      have hlt := hmailbox.2
      omega
    · obtain rfl := Option.some.inj (hc.symm.trans (show sysOfNr 14 = some .clockGetres by decide))
      obtain ⟨v, -, -, -, hlt, -⟩ := hin
      have haddr : (0x1000 : BitVec 32).toNat = 0x1000 := rfl
      change x < (0x1000 : BitVec 32).toNat + 8 at hlt
      omega
  have hstart : Reachable (sharedRuns (Set.Ico 0x400000 0x400004)) bootedKernel :=
    .of_init ⟨rfl, rfl, _, rfl, rfl⟩
  have hrun : Run (sharedRuns (Set.Ico 0x400000 0x400004)) bootedKernel
      [.sched .tick, .call ⟨0, 0, 0⟩ ⟨14, 0, 0x1000, 0, 0, 0, 0⟩] _ :=
    .cons htick (.cons hcall .nil)
  exact ⟨_, _, hstart, hrun, by decide,
    syscall_memory_footprint hstart hrun (by simp) (by decide)⟩

end LampVm
