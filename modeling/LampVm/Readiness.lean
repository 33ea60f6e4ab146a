import LampVm.FdInvariant
import LampVm.FileSyscall
import LampVm.LineDiscipline

/-!
# Readiness

`SYS_POLL` asks the counters of the console whether there is something to read, and
`SYS_READ` asks the ring. For every descriptor that can be read the two agree, unless the
console is in canonical mode and its counters promise a record that has no bytes: an
end-of-file mark is next, or the ring is empty and a counter has drifted.
-/
namespace LampVm

open ByteOrder Transition

/-! ## Entries of a poll -/

/-- The entry `i` of the array at an address. -/
def pollfdAt (memory : Bytes) (addr i : ℕ) : Pollfd :=
  Pollfd.unpack (leNat memory (addr + pollfdSize * i) pollfdSize)

section Poll

variable {t : Tty} {addr : BitVec 32} {n i : ℕ}

theorem Pollfd.pack_lt (p : Pollfd) : p.pack < 256 ^ pollfdSize := by
  have h1 := p.fd.isLt
  have h2 := p.events.isLt
  have h3 := p.revents.isLt
  change _ + _ + _ < 18446744073709551616
  omega

theorem Pollfd.unpack_pack (p : Pollfd) : Pollfd.unpack p.pack = p := by
  have h1 := p.fd.isLt
  have h2 := p.events.isLt
  have h3 := p.revents.isLt
  have hfd : BitVec.ofNat 32 p.pack = p.fd := by
    apply BitVec.eq_of_toNat_eq
    rw [BitVec.toNat_ofNat, Pollfd.pack]
    omega
  have hevents : BitVec.ofNat 16 (p.pack / 2 ^ 32) = p.events := by
    apply BitVec.eq_of_toNat_eq
    rw [BitVec.toNat_ofNat, Pollfd.pack]
    omega
  have hrevents : BitVec.ofNat 16 (p.pack / 2 ^ 48) = p.revents := by
    apply BitVec.eq_of_toNat_eq
    rw [BitVec.toNat_ofNat, Pollfd.pack]
    omega
  rw [Pollfd.unpack, hfd, hevents, hrevents]

@[simp] theorem Pollfd.visited_revents (p : Pollfd) (t : Tty) :
    (p.visited t).revents = pollRevents p t := rfl

theorem pollfdAt_store (memory : Bytes) (a i : ℕ) (p : Pollfd) :
    pollfdAt (leStore memory (a + pollfdSize * i) pollfdSize p.pack) a i = p := by
  rw [pollfdAt, leNat_leStore, Nat.mod_eq_of_lt p.pack_lt, p.unpack_pack]

theorem pollfdAt_store_of_ne {j : ℕ} (h : j ≠ i) (memory : Bytes) (a v : ℕ) :
    pollfdAt (leStore memory (a + pollfdSize * i) pollfdSize v) a j = pollfdAt memory a j := by
  rw [pollfdAt, pollfdAt, leNat_leStore_of_disjoint]
  change _ + 8 * _ + 8 ≤ _ + 8 * _ ∨ _ + 8 * _ + 8 ≤ _ + 8 * _
  omega

theorem abiPtrRangeOk_iff {a len : BitVec 32} : abiPtrRangeOk a len = true ↔
    a ≠ 0 ∧ len ≠ 0 ∧ a.toNat + len.toNat ≤ kernelMemSize.toNat := by
  unfold abiPtrRangeOk
  by_cases hzero : a = 0 ∨ len = 0
  · rw [if_pos hzero]
    refine iff_of_false Bool.false_ne_true ?_
    rintro ⟨hne, hne', -⟩
    exact hzero.elim hne hne'
  · obtain ⟨hne, hne'⟩ := not_or.mp hzero
    have hpos : len.toNat ≠ 0 := BitVec.toNat_ne_iff_ne.mpr hne'
    rw [if_neg hzero]
    by_cases hbig : a ≥ kernelMemSize
    · rw [if_pos hbig]
      refine iff_of_false Bool.false_ne_true ?_
      rintro ⟨-, -, hle⟩
      have : kernelMemSize.toNat ≤ a.toNat := hbig
      omega
    · have hlt : a.toNat < kernelMemSize.toNat := not_le.mp hbig
      have hsub : (kernelMemSize - a).toNat = kernelMemSize.toNat - a.toNat :=
        BitVec.toNat_sub_of_le (le_of_lt hlt)
      rw [if_neg hbig, decide_eq_true_iff, BitVec.le_def, hsub]
      constructor
      · intro hle
        exact ⟨hne, hne', by omega⟩
      · rintro ⟨-, -, hle⟩
        omega

/-- The address of an entry does not wrap. -/
theorem toNat_pollfd (h : addr.toNat + pollfdSize * (i + 1) ≤ kernelMemSize.toNat) :
    (addr + BitVec.ofNat 32 i * BitVec.ofNat 32 pollfdSize).toNat = addr.toNat + pollfdSize * i := by
  have hsize : kernelMemSize.toNat = 0x04000000 := rfl
  have hfd : pollfdSize = 8 := rfl
  rw [hsize, hfd] at h
  rw [hfd, BitVec.toNat_add, BitVec.toNat_mul, BitVec.toNat_ofNat, BitVec.toNat_ofNat]
  omega

/-- The pass visits every entry once. -/
theorem pollScan_spec (hrange : addr ≠ 0 ∧ addr.toNat + pollfdSize * (i + n) ≤ kernelMemSize.toNat)
    (ready : BitVec 32) (memory : Bytes) : ∃ ready' memory',
    pollScan addr t n (BitVec.ofNat 32 i) ready memory = (some ready', memory') ∧
    ∀ j, pollfdAt memory' addr.toNat j =
      if i ≤ j ∧ j < i + n then (pollfdAt memory addr.toNat j).visited t
      else pollfdAt memory addr.toNat j := by
  induction n generalizing i ready memory with
  | zero =>
    refine ⟨ready, memory, rfl, fun j => ?_⟩
    rw [if_neg (by omega)]
  | succ n ih =>
    obtain ⟨hne, hle⟩ := hrange
    have hsize : pollfdSize = 8 := rfl
    have hle' : addr.toNat + pollfdSize * (i + 1) ≤ kernelMemSize.toNat := by
      rw [hsize] at hle ⊢
      omega
    have hoff := toNat_pollfd hle'
    have hok : abiPtrRangeOk (addr + BitVec.ofNat 32 i * BitVec.ofNat 32 pollfdSize)
        (BitVec.ofNat 32 pollfdSize) = true := by
      refine abiPtrRangeOk_iff.mpr ⟨?_, by decide, ?_⟩
      · intro hzero
        rw [hzero] at hoff
        exact hne (BitVec.eq_of_toNat_eq (Nat.eq_zero_of_add_eq_zero_right hoff.symm))
      · rw [hoff]
        change _ + 8 * i + 8 ≤ _
        rw [hsize] at hle'
        omega
    have hnext : BitVec.ofNat 32 i + 1 = BitVec.ofNat 32 (i + 1) := (BitVec.ofNat_add i 1).symm
    rw [pollScan, if_neg (not_not.mpr hok), hoff, hnext]
    dsimp only
    obtain ⟨ready', memory', hrun, hentry⟩ := ih (i := i + 1) ⟨hne, by rwa [add_assoc, add_comm 1]⟩ _ _
    refine ⟨ready', memory', hrun, fun j => ?_⟩
    rw [hentry]
    by_cases hj : j = i
    · subst hj
      rw [if_neg (by omega), if_pos (by omega), pollfdAt_store]
      rfl
    · rw [pollfdAt_store_of_ne hj]
      by_cases hin : i + 1 ≤ j ∧ j < i + 1 + n
      · rw [if_pos hin, if_pos (by omega)]
      · rw [if_neg hin, if_neg (by omega)]

/-- A poll that does not wait keeps the console and visits the entries. -/
theorem sysPoll_spec {fdsAddr nfds : BitVec 32} (s : IoState) (hne : fdsAddr ≠ 0)
    (hnfds : nfds ≠ 0)
    (hrange : fdsAddr.toNat + pollfdSize * nfds.toNat ≤ kernelMemSize.toNat) : ∃ ready memory,
    sysPoll fdsAddr nfds 0 s = (some ⟨ready, .ok⟩, { s with memory := memory }) ∧
    ∀ j < nfds.toNat, pollfdAt memory fdsAddr.toNat j =
      (pollfdAt s.memory fdsAddr.toNat j).visited s.tty := by
  have hsize : kernelMemSize.toNat = 0x04000000 := rfl
  have hfd : pollfdSize = 8 := rfl
  have hsmall : ¬ nfds > kernelMemSize / BitVec.ofNat 32 pollfdSize := by
    rw [gt_iff_lt, BitVec.lt_def]
    change ¬ 8388608 < _
    rw [hfd] at hrange
    omega
  have hmul : (nfds * BitVec.ofNat 32 pollfdSize).toNat = pollfdSize * nfds.toNat := by
    rw [hfd] at hrange ⊢
    rw [BitVec.toNat_mul, BitVec.toNat_ofNat]
    omega
  have hok : abiPtrRangeOk fdsAddr (nfds * BitVec.ofNat 32 pollfdSize) = true := by
    refine abiPtrRangeOk_iff.mpr ⟨hne, ?_, hmul ▸ hrange⟩
    intro hzero
    rw [hzero] at hmul
    have hpos : nfds.toNat ≠ 0 := BitVec.toNat_ne_iff_ne.mpr hnfds
    change 0 = 8 * _ at hmul
    omega
  obtain ⟨ready, memory, hrun, hentry⟩ := pollScan_spec (t := s.tty) (i := 0) (n := nfds.toNat)
    ⟨hne, by rwa [zero_add]⟩ 0 s.memory
  refine ⟨ready, memory, ?_, fun j hj => ?_⟩
  · have hscan : pollScan fdsAddr s.tty nfds.toNat 0 0 s.memory = (some ready, memory) := hrun
    rw [sysPoll, if_neg hnfds, if_neg hsmall, if_neg (not_or.mpr ⟨hne, not_not.mpr hok⟩), hscan]
    dsimp only
    rw [if_pos (rfl : (0 : BitVec 32) = 0)]
    by_cases hready : ready = 0
    · rw [if_neg (not_not.mpr hready), hready]
    · rw [if_pos hready]
  · rw [hentry, if_pos ⟨Nat.zero_le j, by omega⟩]

end Poll

/-! ## Descriptors that can be read -/

section Descriptor

variable {fd : BitVec 32} {table : FdTable} {t : Tty}

/-- A readable descriptor is open, and not on an output. -/
theorem canRead_cases (h : table.canRead fd = true) :
    0 ≤ fd.toInt ∧ table.isOpen fd = true ∧
    (table.fdType fd = .stdin ∨ table.fdType fd = .devZero ∨ table.fdType fd = .devNull ∨
      table.fdType fd = .devTty ∨ table.fdType fd = .socket) := by
  unfold FdTable.canRead FdTable.ofile? at h
  unfold FdTable.fdType FdTable.ofile?
  cases hlookup : table.ofileByFd fd with
  | none =>
    rw [hlookup] at h
    cases h
  | some r =>
    obtain ⟨d, i⟩ := r
    rw [hlookup] at h
    dsimp only [Option.map_some] at h ⊢
    split_ifs at h
    exact ⟨(ofileByFd_eq_some hlookup).1, isOpen_of_ofileByFd hlookup, of_decide_eq_true h⟩

theorem supportsRead_cases (h : fdSupportsRead fd t = true) :
    0 ≤ fd.toInt ∧ fdIsValid fd t = true ∧
    (fdWaitsConsoleRead fd t = true ∨ fdType fd t = .devZero ∨ fdType fd t = .devNull ∨
      fdType fd t = .socket) := by
  unfold fdSupportsRead at h
  unfold fdIsValid fdWaitsConsoleRead fdType
  cases hfds : t.fds with
  | none =>
    rw [hfds] at h
    cases h
  | some table =>
    rw [hfds] at h
    have hread : table.canRead fd = true := h
    obtain ⟨hfd, hopen, htype⟩ := canRead_cases hread
    refine ⟨hfd, hopen, ?_⟩
    rw [decide_eq_true_iff]
    tauto

/-- For a descriptor that can be read a poll reports whether it is ready. -/
theorem pollRevents_pollin {p : Pollfd} (hread : fdSupportsRead p.fd t = true)
    (hin : p.events &&& sysPollin ≠ 0) :
    pollRevents p t &&& sysPollin ≠ 0 ↔ fdReadReady p.fd t = true := by
  obtain ⟨hfd, hvalid, -⟩ := supportsRead_cases hread
  rw [pollRevents, if_neg (not_lt.mpr hfd), if_neg (not_not.mpr hvalid)]
  by_cases hready : fdReadReady p.fd t = true
  · rw [if_pos ⟨hin, hready⟩]
    refine iff_of_true ?_ hready
    split_ifs <;> decide
  · rw [if_neg (fun hand => hready hand.2)]
    refine iff_of_false ?_ hready
    split_ifs <;> decide

end Descriptor

/-! ## Reads that do not wait -/

/-- In canonical mode the counters promise a record, and the ring holds none or one
without bytes. -/
def Console.PromisesNothing (c : Console) : Prop :=
  c.canonical = true ∧ (c.lines ≠ 0 ∨ c.eofs ≠ 0) ∧
    (c.contents = [] ∨ c.contents.head? = some ttyCcVeof)

section Read

variable {canonical : Bool} {c : Console} {t : Tty} {len copied bufAddr : BitVec 32} {n : ℕ}

theorem readLoop_length_le : (consoleReadLoop canonical n c).1.length ≤ n := by
  induction n generalizing c with
  | zero => exact le_rfl
  | succ n ih =>
    unfold consoleReadLoop
    dsimp only
    generalize (if c.eofs ≠ 0 then c.eofs - 1 else c.eofs) = eofs
    split_ifs
    · exact Nat.zero_le _
    · exact Nat.zero_le _
    · exact Nat.succ_le_succ (Nat.zero_le _)
    · exact Nat.succ_le_succ ih
    · exact Nat.succ_le_succ ih

theorem readLoop_eq_nil_iff (hn : n ≠ 0) : (consoleReadLoop canonical n c).1 = [] ↔
    c.contents = [] ∨ canonical = true ∧ c.contents.head? = some ttyCcVeof := by
  obtain ⟨k, rfl⟩ := Nat.exists_eq_succ_of_ne_zero hn
  by_cases hempty : c.tail = c.head
  · rw [consoleReadLoop, if_pos hempty]
    exact iff_of_true rfl (.inl (Console.contents_eq_nil_iff.mpr hempty))
  · rw [consoleReadLoop, if_neg hempty, Console.contents_eq_cons hempty, List.head?_cons,
      Option.some.injEq]
    dsimp only
    by_cases heof : canonical = true ∧ c.buf c.tail = ttyCcVeof
    · rw [if_pos heof]
      exact iff_of_true rfl (.inr heof)
    · rw [if_neg heof]
      refine iff_of_false ?_ (not_or.mpr ⟨List.cons_ne_nil _ _, heof⟩)
      split_ifs <;> simp

/-- A read that does not wait returns how many bytes it took. -/
theorem consoleRead_nonblock (hlen : len ≠ 0) (t : Tty) : ∃ k : ℕ,
    (consoleRead len true t).1 = k ∧ k ≤ len.toNat := by
  by_cases hnone : t.console.canonical = true ∧ t.console.lines = 0 ∧ t.console.eofs = 0
  · exact ⟨0, by rw [consoleRead_of_none hlen hnone]; rfl, Nat.zero_le _⟩
  · rw [consoleRead_of_some hlen hnone rfl]
    split_ifs
    · exact ⟨_, rfl, readLoop_length_le⟩
    · exact ⟨0, rfl, Nat.zero_le _⟩
    · exact ⟨0, rfl, Nat.zero_le _⟩

theorem canRead_eq_false_iff : consoleCanRead c = false ↔
    (c.canonical = true ∧ c.lines = 0 ∧ c.eofs = 0) ∨ c.canonical = false ∧ c.contents = [] := by
  rw [consoleCanRead, Console.contents_eq_nil_iff]
  cases c.canonical with
  | true => simp
  | false =>
    rw [eq_comm (a := c.tail)]
    simp

/-- It takes none exactly when the console is not ready or promises nothing. -/
theorem consoleRead_eq_zero_iff (hlen : len ≠ 0) : (consoleRead len true t).1 = 0 ↔
    consoleCanRead t.console = false ∨ t.console.PromisesNothing := by
  have hn : len.toNat ≠ 0 := BitVec.toNat_ne_iff_ne.mpr hlen
  rw [canRead_eq_false_iff, Console.PromisesNothing]
  by_cases hnone : t.console.canonical = true ∧ t.console.lines = 0 ∧ t.console.eofs = 0
  · rw [consoleRead_of_none hlen hnone]
    exact iff_of_true rfl (.inl (.inl hnone))
  · have hnil : (consoleRead len true t).1 = 0 ↔
        (consoleReadLoop t.console.canonical len.toNat t.console).1 = [] := by
      rw [consoleRead_of_some hlen hnone rfl]
      by_cases hbytes : (consoleReadLoop t.console.canonical len.toNat t.console).1 = []
      · rw [if_neg (by simp [hbytes])]
        refine iff_of_true ?_ hbytes
        split_ifs <;> rfl
      · rw [if_pos (by simpa using hbytes)]
        simp [hbytes]
    rw [hnil, readLoop_eq_nil_iff hn]
    cases hcan : t.console.canonical with
    | true =>
      have hcount : t.console.lines ≠ 0 ∨ t.console.eofs ≠ 0 := by
        by_contra hzero
        obtain ⟨hlines, heofs⟩ := not_or.mp hzero
        exact hnone ⟨hcan, not_not.mp hlines, not_not.mp heofs⟩
      constructor
      · rintro (hempty | ⟨-, heof⟩)
        · exact .inr ⟨rfl, hcount, .inl hempty⟩
        · exact .inr ⟨rfl, hcount, .inr heof⟩
      · rintro ((⟨-, hzero⟩ | ⟨hraw, -⟩) | ⟨-, -, hempty | heof⟩)
        · exact absurd ⟨hcan, hzero⟩ hnone
        · cases hraw
        · exact .inl hempty
        · exact .inr ⟨rfl, heof⟩
    | false => simp

theorem toNat_chunkSize (h : copied < len) :
    (chunkSize len copied).toNat = min 64 (len.toNat - copied.toNat) := by
  have hlt : copied.toNat < len.toNat := h
  have hsub : (len - copied).toNat = len.toNat - copied.toNat :=
    BitVec.toNat_sub_of_le (le_of_lt hlt)
  have hsize : byteBufSize.toNat = 64 := rfl
  unfold chunkSize
  split_ifs with hbig
  · have hgt : byteBufSize.toNat < (len - copied).toNat := hbig
    omega
  · have hle : ¬ byteBufSize.toNat < (len - copied).toNat := hbig
    omega

theorem chunkSize_spec (h : copied < len) :
    (chunkSize len copied).toNat ≠ 0 ∧
      copied.toNat + (chunkSize len copied).toNat ≤ len.toNat := by
  have hlt : copied.toNat < len.toNat := h
  rw [toNat_chunkSize h]
  omega

/-- A round without bytes ends the call, and one with bytes ends it without `EAGAIN` or
goes on with more bytes copied. -/
theorem readConsole_round (hlt : copied < len) (s : IoState) :
    ((consoleRead (chunkSize len copied) true s.tty).1 = 0 ∧
      (readConsole bufAddr len true (n + 1) copied s).1.err =
        if copied = 0 then .eagain else .ok) ∨
    ((consoleRead (chunkSize len copied) true s.tty).1 ≠ 0 ∧
      ((readConsole bufAddr len true (n + 1) copied s).1.err ≠ .eagain ∨
        ∃ copied' s', copied' ≠ 0 ∧ copied'.toNat ≤ len.toNat ∧
          readConsole bufAddr len true (n + 1) copied s =
            readConsole bufAddr len true n copied' s')) := by
  obtain ⟨hchunk, hle⟩ := chunkSize_spec hlt
  have hwant : chunkSize len copied ≠ 0 := fun h => hchunk (congrArg BitVec.toNat h)
  obtain ⟨k, hk, hkle⟩ := consoleRead_nonblock hwant s.tty
  have hblocked : ¬ (k : ℤ) = consoleIoBlocked := by
    change ¬ (k : ℤ) = -1
    omega
  rw [readConsole, if_pos hlt, ite_self]
  dsimp only
  rw [hk, if_neg hblocked]
  by_cases hzero : (k : ℤ) = 0
  · refine .inl ⟨hzero, ?_⟩
    rw [if_pos hzero]
    by_cases hcopied : copied = 0
    · rw [if_neg (not_not.mpr hcopied), if_pos rfl, if_pos hcopied]
      rfl
    · rw [if_pos hcopied, if_neg hcopied]
  · refine .inr ⟨hzero, ?_⟩
    rw [if_neg hzero]
    have hgot : (copied + BitVec.ofInt 32 k).toNat = copied.toNat + k := by
      rw [BitVec.ofInt_natCast, BitVec.toNat_add, BitVec.toNat_ofNat]
      have hlen := len.isLt
      omega
    cases abiUserWriteBytes (bufAddr + copied) (consoleRead (chunkSize len copied) true s.tty).2.1
        s.memory with
    | none => exact .inl nofun
    | some memory =>
      dsimp only
      by_cases hshort : BitVec.ofInt 32 k < chunkSize len copied
      · rw [if_pos hshort]
        exact .inl nofun
      · rw [if_neg hshort]
        refine .inr ⟨_, _, ?_, ?_, rfl⟩
        · intro h
          rw [h] at hgot
          change 0 = _ at hgot
          omega
        · omega

/-- Once bytes are copied the call does not fail with `EAGAIN`. -/
theorem readConsole_ne_eagain (hne : copied ≠ 0) (hle : copied.toNat ≤ len.toNat) (s : IoState) :
    (readConsole bufAddr len true n copied s).1.err ≠ .eagain := by
  induction n generalizing copied s with
  | zero => exact Errno.noConfusion
  | succ n ih =>
    by_cases hlt : copied < len
    · rcases readConsole_round hlt s with ⟨-, herr⟩ | ⟨-, herr | ⟨copied', s', hne', hle', hrun⟩⟩
      · rw [herr, if_neg hne]
        exact Errno.noConfusion
      · exact herr
      · rw [hrun]
        exact ih hne' hle' s'
    · rw [readConsole, if_neg hlt]
      exact Errno.noConfusion

theorem readConsole_eagain_iff (hn : n ≠ 0) (hlen : len ≠ 0) (s : IoState) :
    (readConsole bufAddr len true n 0 s).1.err = .eagain ↔
      consoleCanRead s.tty.console = false ∨ s.tty.console.PromisesNothing := by
  obtain ⟨n, rfl⟩ := Nat.exists_eq_succ_of_ne_zero hn
  have hlt : 0 < len := by
    rw [BitVec.lt_def]
    exact BitVec.toNat_pos_of_ne_zero hlen
  have hwant : chunkSize len 0 ≠ 0 := fun h => (chunkSize_spec hlt).1 (congrArg BitVec.toNat h)
  rw [← consoleRead_eq_zero_iff hwant]
  rcases readConsole_round hlt s with ⟨hrc, herr⟩ | ⟨hrc, herr | ⟨copied', s', hne', hle', hrun⟩⟩
  · rw [herr, if_pos rfl]
    exact iff_of_true rfl hrc
  · exact iff_of_false herr hrc
  · rw [hrun]
    exact iff_of_false (readConsole_ne_eagain hne' hle' s') hrc

theorem readZeros_ne_eagain (memory : Bytes) :
    (readZeros bufAddr len n copied memory).1.err ≠ .eagain := by
  induction n generalizing copied memory with
  | zero => exact Errno.noConfusion
  | succ n ih =>
    unfold readZeros
    split_ifs
    · dsimp only
      split
      · exact Errno.noConfusion
      · exact ih _
    · exact Errno.noConfusion

/-- The call on a descriptor that can be read, with a buffer and without waiting. -/
theorem sysRead_eagain_iff {fd flags : BitVec 32} {s : IoState}
    (hread : fdSupportsRead fd s.tty = true) (hbuf : abiPtrRangeOk bufAddr len = true)
    (hflags : flags &&& sysIoNonblock ≠ 0) :
    (sysRead fd bufAddr len flags s).1.err = .eagain ↔
      fdWaitsConsoleRead fd s.tty = true ∧
        (consoleCanRead s.tty.console = false ∨ s.tty.console.PromisesNothing) := by
  obtain ⟨haddr, hlen, -⟩ := abiPtrRangeOk_iff.mp hbuf
  have hn : len.toNat ≠ 0 := BitVec.toNat_ne_iff_ne.mpr hlen
  obtain ⟨-, -, htype⟩ := supportsRead_cases hread
  rw [sysRead, if_neg (not_not.mpr hread), if_neg hlen,
    if_neg (not_or.mpr ⟨haddr, not_not.mpr hbuf⟩), decide_eq_true hflags, Bool.or_true]
  rw [fdWaitsConsoleRead, decide_eq_true_iff] at htype ⊢
  rcases htype with (htype | htype) | htype | htype | htype
  · rw [htype]
    simpa using readConsole_eagain_iff hn hlen s
  · rw [htype]
    simpa using readConsole_eagain_iff hn hlen s
  · rw [htype]
    simp [readZeros_ne_eagain]
  · rw [htype]
    simp
  · rw [htype]
    simp [syscallFailure]

end Read

/-! ## Poll and read -/

/-- A poll that does not wait, and a read from the descriptor of one of its entries. -/
structure PollRead where
  fdsAddr : BitVec 32
  nfds : BitVec 32
  entry : ℕ
  bufAddr : BitVec 32
  len : BitVec 32
  flags : BitVec 32

def PollRead.pollfd (q : PollRead) (s : IoState) : Pollfd :=
  pollfdAt s.memory q.fdsAddr.toNat q.entry

/-- The arguments are valid: the entry asks for `POLLIN` and for a descriptor of the running
task that can be read and is not a socket, and the read does not wait. -/
structure PollRead.Valid (q : PollRead) (s : IoState) : Prop where
  addr : q.fdsAddr ≠ 0
  range : q.fdsAddr.toNat + pollfdSize * q.nfds.toNat ≤ kernelMemSize.toNat
  entry : q.entry < q.nfds.toNat
  events : (q.pollfd s).events &&& sysPollin ≠ 0
  readable : fdSupportsRead (q.pollfd s).fd s.tty = true
  file : fdType (q.pollfd s).fd s.tty ≠ .socket
  buffer : abiPtrRangeOk q.bufAddr q.len = true
  nonblock : q.flags &&& sysIoNonblock ≠ 0

/-- The poll reports `POLLIN` exactly when the read that follows does not fail with
`EAGAIN`. -/
def PollRead.Truthful (q : PollRead) (s : IoState) : Prop :=
  ∃ ready polled, sysPoll q.fdsAddr q.nfds 0 s = (some ⟨ready, .ok⟩, polled) ∧
    ((q.pollfd polled).revents &&& sysPollin ≠ 0 ↔
      (sysRead (q.pollfd s).fd q.bufAddr q.len q.flags polled).1.err ≠ .eagain)

section PollRead

variable {q : PollRead} {s : IoState}

theorem Console.PromisesNothing.canRead {c : Console} (h : c.PromisesNothing) :
    consoleCanRead c = true := by
  obtain ⟨hcan, hcount, -⟩ := h
  rw [consoleCanRead, if_pos hcan]
  exact decide_eq_true hcount

theorem readReady_iff {fd : BitVec 32} {t : Tty} (hread : fdSupportsRead fd t = true)
    (hfile : fdType fd t ≠ .socket) :
    fdReadReady fd t = true ↔ ¬ (fdWaitsConsoleRead fd t = true ∧ consoleCanRead t.console = false) := by
  obtain ⟨-, -, htype⟩ := supportsRead_cases hread
  rw [fdReadReady, if_neg (not_not.mpr hread)]
  rw [fdWaitsConsoleRead, decide_eq_true_iff] at htype ⊢
  rcases htype with hconsole | htype | htype | htype
  · rw [if_pos hconsole]
    simp [hconsole]
  · simp [htype]
  · simp [htype]
  · exact absurd htype hfile

/-- The two answers, each from the state before the calls. -/
theorem PollRead.Valid.truthful_iff_answers (h : q.Valid s) : q.Truthful s ↔
    (fdReadReady (q.pollfd s).fd s.tty = true ↔
      ¬ (fdWaitsConsoleRead (q.pollfd s).fd s.tty = true ∧
        (consoleCanRead s.tty.console = false ∨ s.tty.console.PromisesNothing))) := by
  have hnfds : q.nfds ≠ 0 := by
    intro hzero
    have hentry := h.entry
    rw [hzero] at hentry
    exact absurd hentry (Nat.not_lt_zero _)
  obtain ⟨ready, memory, hpoll, hentries⟩ := sysPoll_spec s h.addr hnfds h.range
  have hvisited : q.pollfd { s with memory := memory } = (q.pollfd s).visited s.tty :=
    hentries q.entry h.entry
  have hreport : (q.pollfd { s with memory := memory }).revents &&& sysPollin ≠ 0 ↔
      fdReadReady (q.pollfd s).fd s.tty = true := by
    rw [hvisited, Pollfd.visited_revents]
    exact pollRevents_pollin h.readable h.events
  have heagain := sysRead_eagain_iff (s := { s with memory := memory }) h.readable h.buffer h.nonblock
  constructor
  · rintro ⟨ready', polled, hrun, htruthful⟩
    rw [hpoll] at hrun
    obtain ⟨-, rfl⟩ := Prod.mk.inj hrun
    rwa [hreport, ne_eq, heagain] at htruthful
  · intro hanswers
    refine ⟨ready, _, hpoll, ?_⟩
    rwa [hreport, ne_eq, heagain]

/-- For every state and every descriptor that can be read: a poll is truthful unless the
descriptor is on the console and the console promises a record that has no bytes. -/
theorem poll_truthful_iff (h : q.Valid s) : q.Truthful s ↔
    ¬ (fdWaitsConsoleRead (q.pollfd s).fd s.tty = true ∧ s.tty.console.PromisesNothing) := by
  rw [h.truthful_iff_answers, readReady_iff h.readable h.file]
  have hcan : s.tty.console.PromisesNothing → ¬ consoleCanRead s.tty.console = false := by
    intro hp hfalse
    rw [hp.canRead] at hfalse
    cases hfalse
  tauto

end PollRead

/-- An entry at `0x1000` that asks for descriptor 0 and `POLLIN`. -/
def stdinEntry : Bytes := fun a => if a = 0x1004 then 1 else 0

/-- The first task runs, and its standard input is on the console. -/
def stdinTask : Tty := consoleInit
  { Tty.zero with sched := enterTask 1 (runSelect (schedSpawn (some 1) schedInit).2) }

/-- A character is typed. -/
def stdinTyped (ch : BitVec 8) : IoState where
  tty := consoleRxFeed ch stdinTask
  memory := stdinEntry

/-- A poll of the entry, and a read of 16 bytes to `0x2000`. -/
def pollStdin : PollRead := ⟨0x1000, 1, 0, 0x2000, 16, 1⟩

section Typed

variable {ch : BitVec 8}

theorem stdinTyped_fds (hch : isMark ch = true) :
    (stdinTyped ch).tty.fds = some .initStdio := by
  rcases of_decide_eq_true hch with rfl | rfl
  · rfl
  · rfl

theorem stdinTyped_view (hch : isMark ch = true) : (stdinTyped ch).tty.console.view =
    ⟨[ch], if ch = asciiLf then 1 else 0, if ch = ttyCcVeof then 1 else 0, 7⟩ := by
  rw [stdinTyped, feed_view, stdinTask, view_init]
  rcases of_decide_eq_true hch with rfl | rfl
  · rfl
  · rfl

theorem stdinTyped_contents (hch : isMark ch = true) :
    (stdinTyped ch).tty.console.contents = [ch] :=
  congrArg ConsoleView.contents (stdinTyped_view hch)

theorem stdinTyped_pollfd (ch : BitVec 8) : pollStdin.pollfd (stdinTyped ch) = ⟨0, 1, 0⟩ := by
  change pollfdAt stdinEntry 0x1000 0 = _
  decide

theorem stdinTyped_valid (hch : isMark ch = true) : pollStdin.Valid (stdinTyped ch) where
  addr := by decide
  range := by decide
  entry := by decide
  events := by rw [stdinTyped_pollfd]; decide
  readable := by rw [stdinTyped_pollfd, fdSupportsRead, stdinTyped_fds hch]; decide
  file := by
    unfold fdType
    rw [stdinTyped_pollfd, stdinTyped_fds hch]
    decide
  buffer := by decide
  nonblock := by decide

end Typed

/-- A line end is typed: the poll reports it and the read returns it. -/
theorem poll_truthful_line :
    pollStdin.Valid (stdinTyped asciiLf) ∧ pollStdin.Truthful (stdinTyped asciiLf) := by
  refine ⟨stdinTyped_valid rfl, (poll_truthful_iff (stdinTyped_valid rfl)).mpr ?_⟩
  rintro ⟨-, -, -, hcontents⟩
  rw [stdinTyped_contents rfl] at hcontents
  revert hcontents
  decide

/-- An end-of-file mark is typed: the poll reports it and the read fails with `EAGAIN`. -/
theorem poll_not_truthful_at_eof : ¬ ∀ (q : PollRead) (s : IoState) (table : FdTable),
    Reachable consoleCalls s.tty → s.tty.fds = some table → Reachable fdCalls table →
    q.Valid s → q.Truthful s := by
  intro hall
  have hmark : isMark ttyCcVeof = true := rfl
  have hvalid := stdinTyped_valid hmark
  have hview := stdinTyped_view hmark
  have hstart : Reachable consoleCalls stdinTask := .of_init ⟨_, rfl⟩
  have hfeed : consoleCalls.step stdinTask (.feed ttyCcVeof) (stdinTyped ttyCcVeof).tty := rfl
  have htruthful := hall pollStdin (stdinTyped ttyCcVeof) .initStdio (hstart.step hfeed)
    (stdinTyped_fds hmark) (.of_init rfl) hvalid
  have hpromise : (stdinTyped ttyCcVeof).tty.console.PromisesNothing := by
    have hlflag : (stdinTyped ttyCcVeof).tty.console.lflag = 7 := congrArg ConsoleView.lflag hview
    have heofs : (stdinTyped ttyCcVeof).tty.console.eofs = 1 := congrArg ConsoleView.eofs hview
    refine ⟨?_, .inr ?_, .inr ?_⟩
    · rw [Console.canonical, hlflag]
      decide
    · rw [heofs]
      decide
    · rw [stdinTyped_contents hmark]
      rfl
  have hwaits : fdWaitsConsoleRead (pollStdin.pollfd (stdinTyped ttyCcVeof)).fd
      (stdinTyped ttyCcVeof).tty = true := by
    unfold fdWaitsConsoleRead fdType
    rw [stdinTyped_pollfd, stdinTyped_fds rfl]
    decide
  rw [hvalid.truthful_iff_answers, readReady_iff hvalid.readable hvalid.file] at htruthful
  refine htruthful.mp ?_ ⟨hwaits, .inr hpromise⟩
  rintro ⟨-, hfalse⟩
  rw [hpromise.canRead] at hfalse
  cases hfalse

end LampVm
