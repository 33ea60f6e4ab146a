import LampVm.Dispatch
import LampVm.LineDiscipline

/-!
# The init task

`kernel/src/init_task.c`: a task whose entry reads one byte from the console whenever it is
scheduled, and which is a shell. The commands that it carries out are the lines of the bytes
that it has read, whatever the other tasks do.
-/
namespace LampVm

open Transition

abbrev initLineCap : ℕ := 128

/-- `init_state_t`. -/
structure InitState where
  line : Fin initLineCap → BitVec 8
  len : BitVec 32
  started : BitVec 32

/-- The task with the console and `g_klog_level`. While `testing` the task is inside
`fd_selftest_run`. -/
structure Shell where
  tty : Tty
  klogLevel : BitVec 32
  init : InitState
  testing : Bool

/-! ## Text -/

/-- `st->line[i] = b`, inside the array. -/
def InitState.store (i : BitVec 32) (b : BitVec 8) (st : InitState) : Option InitState :=
  if h : i.toNat < initLineCap then
    some { st with line := Function.update st.line ⟨i.toNat, h⟩ b }
  else none

/-- The string that the array holds. -/
def InitState.string (st : InitState) : List (BitVec 8) :=
  (List.ofFn st.line).takeWhile (· ≠ 0)

def initPuts (s : List (BitVec 8)) (w : Shell) : Shell :=
  if s.length ≠ 0 then { w with tty := (consoleWrite s w.tty).2 } else w

def initStreq : List (BitVec 8) → List (BitVec 8) → Bool
  | a :: s, b :: s' => if a ≠ b then false else initStreq s s'
  | [], [] => true
  | _, _ => false

def initStartsWith : List (BitVec 8) → List (BitVec 8) → Bool
  | _, [] => true
  | [], _ :: _ => false
  | a :: s, b :: start => if a ≠ b then false else initStartsWith s start

def initPrompt (w : Shell) : Shell := initPuts (cstr "init$ ") w

/-! ## `printk.c` -/

def hexdig (nib : BitVec 32) : BitVec 8 := (cstr "0123456789ABCDEF").getD nib.toNat 0

/-- The digits from the shift by 28 down to the shift by 0. -/
def kprintHex32 (v : BitVec 32) (w : Shell) : Shell :=
  let digits := (List.range 8).map fun i => hexdig (v >>> (28 - 4 * i) &&& 0xF)
  { w with tty := (cstr "0x" ++ digits).foldl (fun t ch => consoleFbPutc ch t) w.tty }

abbrev klogLevelError : BitVec 32 := 1
abbrev klogLevelWarn : BitVec 32 := 2
abbrev klogLevelInfo : BitVec 32 := 3
abbrev klogLevelDebug : BitVec 32 := 4

def klogSetLevel (level : BitVec 32) (w : Shell) : Shell :=
  { w with klogLevel :=
      if level < klogLevelError then klogLevelError
      else if level > klogLevelDebug then klogLevelDebug
      else level }

/-! ## Commands -/

def Shell.lflag (w : Shell) : BitVec 32 := w.tty.console.lflag

def initShowTtyMode (w : Shell) : Shell :=
  let w := initPuts (cstr " [") (kprintHex32 w.lflag (initPuts (cstr "tty lflag=") w))
  let w := if w.lflag &&& ttyLflagEcho ≠ 0 then initPuts (cstr "ECHO ") w else w
  let w := if w.lflag &&& ttyLflagIcanon ≠ 0 then initPuts (cstr "ICANON ") w else w
  let w := if w.lflag &&& ttyLflagIsig ≠ 0 then initPuts (cstr "ISIG ") w else w
  initPuts (cstr "]\n") w

def initSetFlag (flag : BitVec 32) (on : Bool) (w : Shell) : Shell :=
  let v := if on then w.lflag ||| flag else w.lflag &&& ~~~flag
  initShowTtyMode { w with tty := consoleTtySetLflag v w.tty }

def initShowPollState (w : Shell) : Shell :=
  let w := kprintHex32 (if consoleCanRead w.tty.console then 1 else 0)
    (initPuts (cstr "stdin can_read=") w)
  let w := kprintHex32 w.tty.console.lines (initPuts (cstr " lines=") w)
  let w := kprintHex32 w.tty.console.dropped (initPuts (cstr " dropped=") w)
  initPuts (cstr "\n") w

def initSetLogLevel (lvl : List (BitVec 8)) (w : Shell) : Shell :=
  let report (w : Shell) :=
    initPuts (cstr "\n") (kprintHex32 w.klogLevel (initPuts (cstr "log level=") w))
  if initStreq lvl (cstr "err") then report (klogSetLevel klogLevelError w)
  else if initStreq lvl (cstr "warn") then report (klogSetLevel klogLevelWarn w)
  else if initStreq lvl (cstr "info") then report (klogSetLevel klogLevelInfo w)
  else if initStreq lvl (cstr "debug") then report (klogSetLevel klogLevelDebug w)
  else initPuts (cstr "usage: log <err|warn|info|debug>\n") w

def initHelp : List String :=
  ["commands:\n", "  help\n", "  tty\n", "  tty echo <on|off>\n", "  tty canon <on|off>\n",
    "  tty isig <on|off>\n", "  log <err|warn|info|debug>\n", "  poll\n", "  clear\n", "  fdtest\n"]

/-- `init_handle_cmd`. To clear the screen is to send it a form feed. The self test begins here;
it reads from the console on its own. -/
def initHandleCmd (line : List (BitVec 8)) (w : Shell) : Shell :=
  let line := line.dropWhile (· = 0x20)
  if line = [] then w
  else if initStreq line (cstr "help") then initHelp.foldl (fun w s => initPuts (cstr s) w) w
  else if initStreq line (cstr "tty") then initShowTtyMode w
  else if initStreq line (cstr "poll") then initShowPollState w
  else if initStreq line (cstr "clear") then { w with tty := consoleFbPutc 0x0C w.tty }
  else if initStreq line (cstr "fdtest") then { w with testing := true }
  else if initStartsWith line (cstr "log ") then initSetLogLevel (line.drop 4) w
  else if initStreq line (cstr "tty echo on") then initSetFlag ttyLflagEcho true w
  else if initStreq line (cstr "tty echo off") then initSetFlag ttyLflagEcho false w
  else if initStreq line (cstr "tty canon on") then initSetFlag ttyLflagIcanon true w
  else if initStreq line (cstr "tty canon off") then initSetFlag ttyLflagIcanon false w
  else if initStreq line (cstr "tty isig on") then initSetFlag ttyLflagIsig true w
  else if initStreq line (cstr "tty isig off") then initSetFlag ttyLflagIsig false w
  else initPuts (cstr "\n") (initPuts line (initPuts (cstr "unknown command: ") w))

/-! ## The task -/

/-- What follows a command. -/
def initEndCmd (w : Shell) : Shell := initPrompt { w with init := { w.init with len := 0 } }

def initGreet (w : Shell) : Shell :=
  if w.init.started = 0 then
    initPrompt (initPuts (cstr "init task online (type 'help')\n")
      { w with init := { w.init with started := 1 } })
  else w

/-- `init_task_entry` behind the read of a byte. There is no result if it leaves the array. -/
def initTakeByte (c : BitVec 8) (w : Shell) : Option Shell :=
  if c = asciiLf then
    (w.init.store w.init.len 0).map fun st =>
      let w := initHandleCmd st.string { w with init := st }
      if w.testing then w else initEndCmd w
  else
    let c := if c = 0x09 ∨ c = 0x0B ∨ c = 0x0C then 0x20 else c
    if 0x20 ≤ c ∧ c ≤ 0x7E then
      if w.init.len + 1 < BitVec.ofNat 32 initLineCap then
        (w.init.store w.init.len c).map fun st =>
          { w with init := { st with len := st.len + 1 } }
      else some w
    else some w

def initTaskEntry (w : Shell) : Option Shell :=
  let w := initGreet w
  let r := consoleRead 1 true w.tty
  let w := { w with tty := r.2.2 }
  if r.1 ≤ 0 then some w else initTakeByte (r.2.1.headD 0) w

/-! ## Runs -/

inductive ShellLabel
  | entry
  /-- A read of the self test, and its end. -/
  | testRead (len : BitVec 32) (nonblock : Bool)
  | testEnd
  /-- The keyboard and the other tasks. -/
  | others (call : ConsoleCall)

/-- The kernel once the init task has been spawned. A call of `console_read` is one step. -/
def initShell : System Shell ShellLabel where
  init w := ∃ t₀ line, w = ⟨consoleInit t₀, klogLevelInfo, ⟨line, 0, 0⟩, false⟩
  step w l u :=
    match l with
    | .entry => w.testing = false ∧ initTaskEntry w = some u
    | .testRead len nonblock =>
      w.testing = true ∧ u = { w with tty := (consoleRead len nonblock w.tty).2.2 }
    | .testEnd => w.testing = true ∧ u = initEndCmd { w with testing := false }
    | .others call => ∃ t, consoleCalls.step w.tty call t ∧ u = { w with tty := t }

inductive ShellNote
  /-- The task has read. -/
  | took (note : LineNote)
  | handled (line : List (BitVec 8))
  /-- Somebody else has used the console, or set the terminal's flags. -/
  | console (note : LineNote)
  | set (lflag : BitVec 32)

/-- The line that the next byte completes. -/
def Shell.command (w : Shell) : List (BitVec 8) :=
  ((w.init.store w.init.len 0).map InitState.string).getD []

def shellNotes (w : Shell) : ShellLabel → List ShellNote
  | .entry =>
    let r := consoleRead 1 true (initGreet w).tty
    .took (.got 1 true r.1 r.2.1) ::
      if 0 < r.1 ∧ r.2.1.headD 0 = asciiLf then [.handled w.command] else []
  | .testRead len nonblock => (lineNotes w.tty (.read len nonblock)).map .console
  | .testEnd => []
  | .others (.setLflag lflag) => [.set lflag]
  | .others call => (lineNotes w.tty call).map .console

/-! ## What commands do -/

/-- What a command can set. -/
structure Settings where
  lflag : BitVec 32
  klogLevel : BitVec 32
  deriving DecidableEq, Repr

def Settings.setFlag (flag : BitVec 32) (on : Bool) (s : Settings) : Settings :=
  { s with lflag := (if on then s.lflag ||| flag else s.lflag &&& ~~~flag) &&& ttyLflagSupported }

def Settings.setLevel (level : BitVec 32) (s : Settings) : Settings := { s with klogLevel := level }

def settingCommands : List (List (BitVec 8) × (Settings → Settings)) :=
  [(cstr "log err", .setLevel klogLevelError), (cstr "log warn", .setLevel klogLevelWarn),
    (cstr "log info", .setLevel klogLevelInfo), (cstr "log debug", .setLevel klogLevelDebug),
    (cstr "tty echo on", .setFlag ttyLflagEcho true),
    (cstr "tty echo off", .setFlag ttyLflagEcho false),
    (cstr "tty canon on", .setFlag ttyLflagIcanon true),
    (cstr "tty canon off", .setFlag ttyLflagIcanon false),
    (cstr "tty isig on", .setFlag ttyLflagIsig true),
    (cstr "tty isig off", .setFlag ttyLflagIsig false)]

/-- A line without its leading spaces. -/
def unindented (line : List (BitVec 8)) : List (BitVec 8) := line.dropWhile (· = 0x20)

/-- The settings behind a command. -/
def Settings.after (line : List (BitVec 8)) (s : Settings) : Settings :=
  match settingCommands.find? fun c => decide (unindented line = c.1) with
  | some c => c.2 s
  | none => s

def Shell.settings (w : Shell) : Settings := ⟨w.lflag, w.klogLevel⟩

/-- `w` with other settings and more on the screen. -/
def Shell.with (s : Settings) (screen : List (BitVec 8)) (w : Shell) : Shell :=
  { w with
    tty := { w.tty with console := { w.tty.console with lflag := s.lflag }, screen := screen }
    klogLevel := s.klogLevel }

/-- Only the screen changes. -/
def Shell.Prints (w u : Shell) : Prop := ∃ screen, u = w.with w.settings screen

section Commands

variable {w u v : Shell} {line : List (BitVec 8)}

theorem Shell.Prints.refl (w : Shell) : w.Prints w := ⟨w.tty.screen, rfl⟩

theorem Shell.Prints.trans (h : w.Prints u) (h' : u.Prints v) : w.Prints v := by
  obtain ⟨_, rfl⟩ := h
  obtain ⟨screen, rfl⟩ := h'
  exact ⟨screen, rfl⟩

theorem prints_chars (src : List (BitVec 8)) (w : Shell) :
    w.Prints { w with tty := src.foldl (fun t ch => consoleFbPutc ch t) w.tty } := by
  induction src generalizing w with
  | nil => exact .refl w
  | cons ch src ih =>
    exact Shell.Prints.trans ⟨ch :: w.tty.screen, rfl⟩
      (ih { w with tty := consoleFbPutc ch w.tty })

theorem Shell.Prints.puts (h : w.Prints u) (s : List (BitVec 8)) : w.Prints (initPuts s u) := by
  unfold initPuts
  split_ifs
  · exact h.trans (prints_chars s u)
  · exact h

theorem Shell.Prints.hex (h : w.Prints u) (v : BitVec 32) : w.Prints (kprintHex32 v u) :=
  h.trans (prints_chars _ u)

theorem Shell.Prints.ite {p : Prop} [Decidable p] (h : w.Prints u) (h' : w.Prints v) :
    w.Prints (if p then u else v) := by
  split_ifs
  · exact h
  · exact h'

theorem prints_flag (flag : BitVec 32) (name : List (BitVec 8)) (w : Shell) :
    w.Prints (if w.lflag &&& flag ≠ 0 then initPuts name w else w) :=
  ((Shell.Prints.refl w).puts name).ite (.refl w)

theorem prints_initShowTtyMode (w : Shell) : w.Prints (initShowTtyMode w) := by
  have hlflag := (((Shell.Prints.refl w).puts (cstr "tty lflag=")).hex w.lflag).puts (cstr " [")
  have hecho := hlflag.trans (prints_flag ttyLflagEcho (cstr "ECHO ") _)
  have hicanon := hecho.trans (prints_flag ttyLflagIcanon (cstr "ICANON ") _)
  exact (hicanon.trans (prints_flag ttyLflagIsig (cstr "ISIG ") _)).puts _

theorem prints_initShowPollState (w : Shell) : w.Prints (initShowPollState w) :=
  (((((((Shell.Prints.refl w).puts _).hex _).puts _).hex _).puts _).hex _).puts _

theorem prints_lines (lines : List String) (w : Shell) :
    w.Prints (lines.foldl (fun w s => initPuts (cstr s) w) w) := by
  induction lines generalizing w with
  | nil => exact .refl w
  | cons s lines ih => exact ((Shell.Prints.refl w).puts _).trans (ih _)

theorem initStreq_iff {a b : List (BitVec 8)} : initStreq a b = true ↔ a = b := by
  induction a generalizing b with
  | nil => cases b <;> simp [initStreq]
  | cons x a ih =>
    cases b with
    | nil => simp [initStreq]
    | cons y b =>
      by_cases hxy : x = y
      · simp [initStreq, hxy, ih]
      · simp [initStreq, hxy]

theorem initStartsWith_iff {s start : List (BitVec 8)} :
    initStartsWith s start = true ↔ start ++ s.drop start.length = s := by
  induction start generalizing s with
  | nil => cases s <;> simp [initStartsWith]
  | cons y start ih =>
    cases s with
    | nil => simp [initStartsWith]
    | cons x s =>
      by_cases hxy : x = y
      · simp [initStartsWith, hxy, ih]
      · simp [initStartsWith, hxy, Ne.symm hxy]

theorem Settings.after_of_mem {c : List (BitVec 8) × (Settings → Settings)}
    (hc : c ∈ settingCommands) (hline : unindented line = c.1) (s : Settings) :
    s.after line = c.2 s := by
  have hfind : settingCommands.find? (fun d => decide (c.1 = d.1)) = some c := by
    simp only [settingCommands, List.mem_cons, List.not_mem_nil, or_false] at hc
    rcases hc with rfl | rfl | rfl | rfl | rfl | rfl | rfl | rfl | rfl | rfl <;> rfl
  rw [Settings.after, hline, hfind]

theorem Settings.after_of_not_mem (hline : ∀ c ∈ settingCommands, unindented line ≠ c.1)
    (s : Settings) : s.after line = s := by
  have hfind : settingCommands.find? (fun c => decide (unindented line = c.1)) = none :=
    List.find?_eq_none.mpr fun c hc => by simpa using hline c hc
  rw [Settings.after, hfind]

/-- `w` behind the command `line`. -/
def Shell.behind (line screen : List (BitVec 8)) (w : Shell) : Shell :=
  { w.with (w.settings.after line) screen with
    testing := decide (unindented line = cstr "fdtest") || w.testing }

theorem Shell.Prints.behind (h : w.Prints u)
    (hset : ∀ c ∈ settingCommands, unindented line ≠ c.1)
    (htest : unindented line ≠ cstr "fdtest") : ∃ screen, u = w.behind line screen := by
  obtain ⟨screen, rfl⟩ := h
  refine ⟨screen, ?_⟩
  rw [Shell.behind, Settings.after_of_not_mem hset, decide_eq_false htest]
  rfl

/-- A command that sets something reports it. -/
theorem behind_of_set {c : List (BitVec 8) × (Settings → Settings)} (hc : c ∈ settingCommands)
    (hline : unindented line = c.1) (h : (w.with (c.2 w.settings) w.tty.screen).Prints u) :
    ∃ screen, u = w.behind line screen := by
  have htest : ∀ d ∈ settingCommands, d.1 ≠ cstr "fdtest" := by decide
  obtain ⟨screen, rfl⟩ := h
  refine ⟨screen, ?_⟩
  rw [Shell.behind, Settings.after_of_mem hc hline, hline, decide_eq_false (htest c hc)]
  rfl

theorem setLogLevel_behind {lvl : List (BitVec 8)} (hline : unindented line = cstr "log " ++ lvl) :
    ∃ screen, initSetLogLevel lvl w = w.behind line screen := by
  have hreport (level : BitVec 32) (name : List (BitVec 8)) (hname : lvl = name)
      (hc : (cstr "log " ++ name, .setLevel level) ∈ settingCommands)
      (hlevel : klogSetLevel level w = w.with (w.settings.setLevel level) w.tty.screen) :=
    behind_of_set (w := w) hc (hname ▸ hline)
      ((((Shell.Prints.refl _).puts (cstr "log level=")).hex level).puts (cstr "\n"))
  unfold initSetLogLevel
  simp only [initStreq_iff]
  split_ifs with herr hwarn hinfo hdebug
  · exact hreport klogLevelError _ herr (.head _) rfl
  · exact hreport klogLevelWarn _ hwarn (.tail _ (.head _)) rfl
  · exact hreport klogLevelInfo _ hinfo (.tail _ (.tail _ (.head _))) rfl
  · exact hreport klogLevelDebug _ hdebug (.tail _ (.tail _ (.tail _ (.head _)))) rfl
  · have hlevels : ∀ c ∈ settingCommands, initStartsWith c.1 (cstr "log ") = true →
        c.1.drop 4 ∈ [cstr "err", cstr "warn", cstr "info", cstr "debug"] := by decide
    have hset : ∀ c ∈ settingCommands, unindented line ≠ c.1 := by
      intro c hc heq
      have hmem := hlevels c hc (by
        rw [← heq, hline, initStartsWith_iff, List.drop_left])
      rw [← heq, hline] at hmem
      have hdrop : (cstr "log " ++ lvl).drop (cstr "log ").length = lvl := List.drop_left
      rw [show (4 : ℕ) = (cstr "log ").length by decide, hdrop] at hmem
      simp only [List.mem_cons, List.not_mem_nil, or_false] at hmem
      rcases hmem with h | h | h | h
      · exact herr h
      · exact hwarn h
      · exact hinfo h
      · exact hdebug h
    have htest : unindented line ≠ cstr "fdtest" := by
      rw [hline]
      intro heq
      exact absurd (congrArg (List.take 1) heq) (by
        rw [List.take_append_of_le_length (by decide)]
        decide)
    exact ((Shell.Prints.refl w).puts _).behind hset htest

theorem setFlag_behind {flag : BitVec 32} {on : Bool} {name : List (BitVec 8)}
    (hc : (name, .setFlag flag on) ∈ settingCommands) (hline : unindented line = name) :
    ∃ screen, initSetFlag flag on w = w.behind line screen :=
  behind_of_set hc hline (prints_initShowTtyMode (w.with (w.settings.setFlag flag on) w.tty.screen))

theorem behind_ite {p : Prop} [Decidable p] (h : p → ∃ screen, u = w.behind line screen)
    (h' : ¬ p → ∃ screen, v = w.behind line screen) :
    ∃ screen, (if p then u else v) = w.behind line screen := by
  by_cases hp : p
  · rw [if_pos hp]
    exact h hp
  · rw [if_neg hp]
    exact h' hp

/-- A command changes the settings and the screen, or begins the self test. -/
theorem handleCmd_behind (line : List (BitVec 8)) (w : Shell) :
    ∃ screen, initHandleCmd line w = w.behind line screen := by
  have hprint {body : List (BitVec 8)} {u : Shell} (hline : unindented line = body)
      (hset : ∀ c ∈ settingCommands, body ≠ c.1) (htest : body ≠ cstr "fdtest")
      (h : w.Prints u) : ∃ screen, u = w.behind line screen :=
    h.behind (hline ▸ hset) (hline ▸ htest)
  have heq {s : List (BitVec 8)} (h : initStreq (unindented line) s = true) :
      unindented line = s := initStreq_iff.mp h
  have hflag {flag : BitVec 32} {on : Bool} {name : List (BitVec 8)} (i : ℕ)
      (hi : settingCommands[i]? = some (name, .setFlag flag on))
      (h : initStreq (unindented line) name = true) :
      ∃ screen, initSetFlag flag on w = w.behind line screen :=
    setFlag_behind (List.mem_of_getElem? hi) (heq h)
  refine behind_ite (fun hnil => ?_) fun _ => ?_
  · exact hprint hnil (by decide) (by decide) (.refl w)
  refine behind_ite (fun hhelp => ?_) fun _ => ?_
  · exact hprint (heq hhelp) (by decide) (by decide) (prints_lines initHelp w)
  refine behind_ite (fun htty => ?_) fun _ => ?_
  · exact hprint (heq htty) (by decide) (by decide) (prints_initShowTtyMode w)
  refine behind_ite (fun hpoll => ?_) fun _ => ?_
  · exact hprint (heq hpoll) (by decide) (by decide) (prints_initShowPollState w)
  refine behind_ite (fun hclear => ?_) fun _ => ?_
  · exact hprint (heq hclear) (by decide) (by decide) (prints_chars [0x0C] w)
  refine behind_ite (fun htest => ?_) fun htest => ?_
  · have hset : ∀ c ∈ settingCommands, cstr "fdtest" ≠ c.1 := by decide
    refine ⟨w.tty.screen, ?_⟩
    rw [Shell.behind, Settings.after_of_not_mem (heq htest ▸ hset), decide_eq_true (heq htest)]
    rfl
  refine behind_ite (fun hlog => ?_) fun hlog => ?_
  · exact setLogLevel_behind (initStartsWith_iff.mp hlog).symm
  refine behind_ite (hflag 4 rfl) fun h₁ => ?_
  refine behind_ite (hflag 5 rfl) fun h₂ => ?_
  refine behind_ite (hflag 6 rfl) fun h₃ => ?_
  refine behind_ite (hflag 7 rfl) fun h₄ => ?_
  refine behind_ite (hflag 8 rfl) fun h₅ => ?_
  refine behind_ite (hflag 9 rfl) fun h₆ => ?_
  have hknown : ∀ c ∈ settingCommands, initStartsWith c.1 (cstr "log ") = true ∨
      c.1 ∈ [cstr "tty echo on", cstr "tty echo off", cstr "tty canon on",
        cstr "tty canon off", cstr "tty isig on", cstr "tty isig off"] := by decide
  refine ((((Shell.Prints.refl w).puts _).puts _).puts _).behind ?_ (mt initStreq_iff.mpr htest)
  intro c hc hcmd
  have hcase := hknown c hc
  rw [← hcmd] at hcase
  simp only [List.mem_cons, List.not_mem_nil, or_false, ← initStreq_iff] at hcase
  rcases hcase with h | h | h | h | h | h | h
  · exact hlog h
  · exact h₁ h
  · exact h₂ h
  · exact h₃ h
  · exact h₄ h
  · exact h₅ h
  · exact h₆ h

end Commands

/-! ## The line that is kept -/

/-- The characters taken since the last line end. -/
def InitState.text (st : InitState) : List (BitVec 8) := (List.ofFn st.line).take st.len.toNat

def spaced (c : BitVec 8) : BitVec 8 := if c = 0x09 ∨ c = 0x0B ∨ c = 0x0C then 0x20 else c

def printable (c : BitVec 8) : Bool := 0x20 ≤ c ∧ c ≤ 0x7E

/-- What becomes of the bytes of a line. -/
def shellLine (cs : List (BitVec 8)) : List (BitVec 8) :=
  ((cs.map spaced).filter printable).take 127

section Text

variable {st : InitState} {cs : List (BitVec 8)}

theorem shellLine_concat (cs : List (BitVec 8)) (c : BitVec 8) :
    shellLine (cs ++ [c]) =
      if printable (spaced c) ∧ (shellLine cs).length < 127 then shellLine cs ++ [spaced c]
      else shellLine cs := by
  have hlength : (shellLine cs).length < 127 ↔ ((cs.map spaced).filter printable).length < 127 := by
    rw [shellLine, List.length_take]
    omega
  simp only [hlength]
  unfold shellLine
  rw [List.map_append, List.filter_append, List.take_append, List.map_singleton]
  by_cases hc : printable (spaced c) = true
  · by_cases hroom : ((cs.map spaced).filter printable).length < 127
    · have hone : 1 ≤ 127 - ((cs.map spaced).filter printable).length := by omega
      rw [if_pos ⟨hc, hroom⟩, List.filter_cons_of_pos hc, List.filter_nil,
        List.take_of_length_le (by omega), List.take_of_length_le hone]
    · have hzero : 127 - ((cs.map spaced).filter printable).length = 0 := by omega
      rw [if_neg fun h => hroom h.2, hzero, List.take_zero, List.append_nil]
  · rw [if_neg fun h => hc h.1, List.filter_cons_of_neg hc, List.filter_nil, List.take_nil,
      List.append_nil]

/-- No character of a line ends a string. -/
theorem shellLine_ne_zero {b : BitVec 8} (hb : b ∈ shellLine cs) : b ≠ 0 := by
  rintro rfl
  have hprintable := List.of_mem_filter (List.mem_of_mem_take hb)
  revert hprintable
  decide

theorem InitState.length_text (h : st.len.toNat < 128) : st.text.length = st.len.toNat := by
  rw [InitState.text, List.length_take, List.length_ofFn]
  exact Nat.min_eq_left h.le

theorem InitState.store_eq {i : BitVec 32} (h : i.toNat < 128) (b : BitVec 8) : ∃ line,
    st.store i b = some { st with line := line } ∧
      List.ofFn line = (List.ofFn st.line).set i.toNat b := by
  refine ⟨Function.update st.line ⟨i.toNat, h⟩ b, dif_pos h, ?_⟩
  refine List.ext_getElem ?_ fun j _ _ => ?_
  · rw [List.length_set, List.length_ofFn, List.length_ofFn]
  · rw [List.getElem_ofFn, List.getElem_set, List.getElem_ofFn, Function.update_apply]
    exact if_congr (Fin.ext_iff.trans eq_comm) rfl rfl

/-- A character behind the others. -/
theorem InitState.store_char (h : st.len.toNat < 127) (b : BitVec 8) : ∃ line,
    st.store st.len b = some { st with line := line } ∧
      InitState.text ⟨line, st.len + 1, st.started⟩ = st.text ++ [b] := by
  obtain ⟨line, hstore, hline⟩ := st.store_eq (i := st.len) (by omega) b
  have hlen : (st.len + 1).toNat = st.len.toNat + 1 := by
    rw [BitVec.toNat_add]
    exact Nat.mod_eq_of_lt (by change st.len.toNat + 1 < _; omega)
  refine ⟨line, hstore, ?_⟩
  have hset : st.len.toNat < (List.ofFn st.line).length := by
    rw [List.length_ofFn]
    exact h.trans (by decide)
  rw [InitState.text, hlen, hline, List.set_eq_take_append_cons_drop, if_pos hset, InitState.text,
    List.take_append, List.length_take, Nat.min_eq_left hset.le, Nat.add_sub_cancel_left,
    List.take_take, Nat.min_eq_right (Nat.le_succ _), List.take_succ_cons, List.take_zero]

/-- The end of the string. -/
theorem InitState.store_end (h : st.len.toNat < 128) (hzero : ∀ b ∈ st.text, b ≠ 0) : ∃ line,
    st.store st.len 0 = some { st with line := line } ∧
      InitState.string { st with line := line } = st.text := by
  obtain ⟨line, hstore, hline⟩ := st.store_eq h 0
  refine ⟨line, hstore, ?_⟩
  have hset : st.len.toNat < (List.ofFn st.line).length := by
    rw [List.length_ofFn]
    exact h
  rw [InitState.string, hline, List.set_eq_take_append_cons_drop, if_pos hset,
    ← InitState.text, List.takeWhile_append_of_pos fun b hb => decide_eq_true (hzero b hb),
    List.takeWhile_cons_of_neg (by decide), List.append_nil]

end Text

/-! ## Lines -/

/-- Lines with their line ends, and the beginning of another. -/
structure IsLines (bytes : List (BitVec 8)) (lines : List (List (BitVec 8)))
    (pending : List (BitVec 8)) : Prop where
  eq : bytes = lines.flatMap (· ++ [asciiLf]) ++ pending
  noEnd : ∀ line ∈ lines, asciiLf ∉ line
  noEndPending : asciiLf ∉ pending

/-- The line that is pending, as the task keeps it. There is none while it tests. -/
structure Shell.Keeps (w : Shell) (pending : List (BitVec 8)) : Prop where
  room : w.testing = false → w.init.len.toNat < 128
  text : w.testing = false → w.init.text = shellLine pending
  testing : w.testing = true → pending = []

section Entry

variable {w u : Shell} {bytes pending : List (BitVec 8)} {lines : List (List (BitVec 8))}
  {c : BitVec 8}

theorem IsLines.lf (h : IsLines bytes lines pending) :
    IsLines (bytes ++ [asciiLf]) (lines ++ [pending]) [] := by
  refine ⟨?_, ?_, List.not_mem_nil⟩
  · rw [h.eq, List.flatMap_append, List.flatMap_singleton, List.append_nil, List.append_assoc]
  · intro line hline
    rcases List.mem_append.mp hline with hline | hline
    · exact h.noEnd line hline
    · rw [List.mem_singleton.mp hline]
      exact h.noEndPending

theorem IsLines.char (h : IsLines bytes lines pending) (hc : c ≠ asciiLf) :
    IsLines (bytes ++ [c]) lines (pending ++ [c]) := by
  refine ⟨by rw [h.eq, List.append_assoc], h.noEnd, ?_⟩
  rw [List.mem_append, List.mem_singleton]
  rintro (hmem | rfl)
  · exact h.noEndPending hmem
  · exact hc rfl

theorem initGreet_eq (w : Shell) : ∃ screen started, initGreet w =
    { w with
      tty := { w.tty with screen := screen }
      init := { w.init with started := started } } := by
  unfold initGreet
  split_ifs
  · obtain ⟨screen, hprints⟩ := ((Shell.Prints.refl { w with init := { w.init with started := 1 } }
      ).puts (cstr "init task online (type 'help')\n")).puts (cstr "init$ ")
    exact ⟨screen, 1, hprints⟩
  · exact ⟨w.tty.screen, w.init.started, rfl⟩

theorem initEndCmd_eq (w : Shell) : ∃ screen, initEndCmd w =
    { w with tty := { w.tty with screen := screen }, init := { w.init with len := 0 } } :=
  (Shell.Prints.refl { w with init := { w.init with len := 0 } }).puts (cstr "init$ ")

/-- The task behind its read. -/
def Shell.readByte (w : Shell) : Shell :=
  { initGreet w with tty := (consoleRead 1 true (initGreet w).tty).2.2 }

theorem read_lflag (len : BitVec 32) (nonblock : Bool) (t : Tty) :
    (consoleRead len nonblock t).2.2.console.lflag = t.console.lflag := by
  rw [read_console]
  split_ifs
  · rfl
  · exact readLoop_lflag _ _ _

theorem readByte_eq (w : Shell) : w.readByte.settings = w.settings ∧
    w.readByte.testing = w.testing ∧ w.readByte.init.len = w.init.len ∧
    w.readByte.init.line = w.init.line := by
  obtain ⟨screen, started, hgreet⟩ := initGreet_eq w
  have hlflag : w.readByte.lflag = w.lflag :=
    (read_lflag 1 true _).trans (by rw [hgreet]; rfl)
  rw [Shell.settings, hlflag, Shell.readByte, hgreet]
  exact ⟨rfl, rfl, rfl, rfl⟩

theorem Shell.Keeps.readByte (h : w.Keeps pending) : w.readByte.Keeps pending := by
  obtain ⟨-, htesting, hlen, hline⟩ := readByte_eq w
  refine ⟨?_, ?_, ?_⟩
  · rw [htesting, hlen]
    exact h.room
  · rw [htesting, InitState.text, hlen, hline]
    exact h.text
  · rw [htesting]
    exact h.testing

/-- A read of one byte returns it, or zero. -/
theorem read_byte (t : Tty) :
    ((consoleRead 1 true t).1 = 0 ∧ (consoleRead 1 true t).2.1 = []) ∨
      ∃ c, (consoleRead 1 true t).1 = 1 ∧ (consoleRead 1 true t).2.1 = [c] := by
  by_cases hnone : t.console.canonical = true ∧ t.console.lines = 0 ∧ t.console.eofs = 0
  · rw [consoleRead_of_none (by decide) hnone]
    exact .inl ⟨rfl, rfl⟩
  · have hlength : (consoleReadLoop t.console.canonical (1 : BitVec 32).toNat
        t.console).1.length ≤ 1 := by
      rw [show (1 : BitVec 32).toNat = 1 from rfl]
      simp only [consoleReadLoop]
      split_ifs <;> simp
    rw [consoleRead_of_some (by decide) hnone rfl]
    split_ifs with hsome
    · obtain ⟨c, hc⟩ := 
        List.length_eq_one_iff.mp (le_antisymm hlength (Nat.pos_of_ne_zero hsome))
      exact .inr ⟨c, by rw [hc]; rfl, hc⟩
    · exact .inl ⟨rfl, rfl⟩
    · exact .inl ⟨rfl, rfl⟩

/-- The task takes no byte, or one. -/
theorem taskEntry_cases (w : Shell) :
    (shellNotes w .entry = [.took (.got 1 true 0 [])] ∧ initTaskEntry w = some w.readByte) ∨
    ∃ c, shellNotes w .entry =
        .took (.got 1 true 1 [c]) :: (if c = asciiLf then [.handled w.command] else []) ∧
      initTaskEntry w = initTakeByte c w.readByte := by
  rcases read_byte (initGreet w).tty with ⟨hrc, hbytes⟩ | ⟨c, hrc, hbytes⟩
  · refine .inl ⟨?_, ?_⟩
    · simp only [shellNotes, hrc, hbytes]
      rfl
    · simp only [initTaskEntry, hrc, if_pos (le_refl (0 : ℤ))]
      rfl
  · refine .inr ⟨c, ?_, ?_⟩
    · simp only [shellNotes, hrc, hbytes, List.headD_cons, zero_lt_one, true_and]
    · have hpos : ¬ (1 : ℤ) ≤ 0 := by decide
      simp only [initTaskEntry, hrc, hbytes, if_neg hpos, List.headD_cons]
      rfl

theorem Shell.Keeps.command (h : w.Keeps pending) (htesting : w.testing = false) :
    w.command = shellLine pending := by
  have hzero (b : BitVec 8) (hb : b ∈ w.init.text) : b ≠ 0 :=
    shellLine_ne_zero (h.text htesting ▸ hb)
  obtain ⟨line, hstore, hstring⟩ := InitState.store_end (h.room htesting) hzero
  rw [Shell.command, hstore, ← h.text htesting]
  exact hstring

theorem takeByte_char (h : w.Keeps pending) (htesting : w.testing = false) (hc : c ≠ asciiLf) :
    ∃ u, initTakeByte c w = some u ∧ u.Keeps (pending ++ [c]) ∧ u.tty = w.tty ∧
      u.klogLevel = w.klogLevel ∧ u.testing = false := by
  have hlength := InitState.length_text (h.room htesting)
  rw [h.text htesting] at hlength
  have hline := shellLine_concat pending c
  have hsame (hpending : shellLine (pending ++ [c]) = shellLine pending) :
      w.Keeps (pending ++ [c]) :=
    ⟨h.room, fun ht => (h.text ht).trans hpending.symm, by rw [htesting]; nofun⟩
  unfold initTakeByte
  rw [if_neg hc]
  change ∃ u, (if 0x20 ≤ spaced c ∧ spaced c ≤ 0x7E then _ else some w) = some u ∧ _
  by_cases hprint : 0x20 ≤ spaced c ∧ spaced c ≤ 0x7E
  · have hprintable : printable (spaced c) = true := decide_eq_true hprint
    have hadd : (w.init.len + 1).toNat = w.init.len.toNat + 1 := by
      have hlt := h.room htesting
      rw [BitVec.toNat_add]
      exact Nat.mod_eq_of_lt (by change w.init.len.toNat + 1 < _; omega)
    have hroom : w.init.len + 1 < BitVec.ofNat 32 initLineCap ↔ w.init.len.toNat < 127 := by
      rw [BitVec.lt_def, hadd]
      change w.init.len.toNat + 1 < 128 ↔ _
      omega
    rw [if_pos hprint]
    by_cases hlt : w.init.len.toNat < 127
    · obtain ⟨line, hstore, htext⟩ := InitState.store_char hlt (spaced c)
      have hkeeps : InitState.text ⟨line, w.init.len + 1, w.init.started⟩ =
          shellLine (pending ++ [c]) := by
        rw [htext, hline, if_pos ⟨hprintable, by omega⟩, h.text htesting]
      rw [if_pos (hroom.mpr hlt)]
      change ∃ u, (w.init.store w.init.len (spaced c)).map _ = some u ∧ _
      rw [hstore]
      refine ⟨_, rfl, ⟨fun _ => ?_, fun _ => hkeeps, ?_⟩, rfl, rfl, htesting⟩
      · change (w.init.len + 1).toNat < 128
        omega
      · change w.testing = true → _
        rw [htesting]
        nofun
    · rw [if_neg (mt hroom.mp hlt)]
      exact ⟨w, rfl, hsame (by rw [hline, if_neg fun hboth => hlt (by omega)]), rfl, rfl, htesting⟩
  · have hprintable : ¬ printable (spaced c) = true := mt of_decide_eq_true hprint
    rw [if_neg hprint]
    exact ⟨w, rfl, hsame (by rw [hline, if_neg fun hboth => hprintable hboth.1]), rfl, rfl,
      htesting⟩

/-- A line end has the line carried out. -/
theorem takeByte_lf (h : w.Keeps pending) (htesting : w.testing = false) :
    ∃ u screen, initTakeByte asciiLf w = some u ∧ u.Keeps [] ∧
      u.tty = (w.with (w.settings.after (shellLine pending)) screen).tty ∧
      u.klogLevel = (w.settings.after (shellLine pending)).klogLevel ∧
      u.testing = decide (unindented (shellLine pending) = cstr "fdtest") := by
  have hzero (b : BitVec 8) (hb : b ∈ w.init.text) : b ≠ 0 :=
    shellLine_ne_zero (h.text htesting ▸ hb)
  obtain ⟨line, hstore, hstring⟩ := InitState.store_end (h.room htesting) hzero
  let before : Shell := { w with init := { w.init with line := line } }
  obtain ⟨screen, hcmd⟩ := handleCmd_behind (shellLine pending) before
  have htake : initTakeByte asciiLf w = some
      (if (before.behind (shellLine pending) screen).testing then
        before.behind (shellLine pending) screen
      else initEndCmd (before.behind (shellLine pending) screen)) := by
    unfold initTakeByte
    rw [if_pos rfl, hstore, ← hcmd, ← h.text htesting, ← hstring]
    rfl
  rw [htake]
  have hafter : (before.behind (shellLine pending) screen).testing =
      decide (unindented (shellLine pending) = cstr "fdtest") := by
    rw [Shell.behind]
    dsimp only
    rw [htesting, Bool.or_false]
  by_cases htest : unindented (shellLine pending) = cstr "fdtest"
  · rw [decide_eq_true htest] at hafter
    rw [if_pos hafter, decide_eq_true htest]
    refine ⟨_, screen, rfl, ⟨?_, ?_, fun _ => rfl⟩, rfl, rfl, hafter⟩
    · rw [hafter]
      nofun
    · rw [hafter]
      nofun
  · rw [decide_eq_false htest] at hafter
    obtain ⟨screen', hend⟩ := initEndCmd_eq (before.behind (shellLine pending) screen)
    rw [hafter, if_neg Bool.false_ne_true, decide_eq_false htest, hend]
    refine ⟨_, screen', rfl, ⟨fun _ => ?_, fun _ => rfl, ?_⟩, rfl, rfl, hafter⟩
    · change (0 : BitVec 32).toNat < 128
      decide
    · intro ht
      exact absurd (hafter.symm.trans ht) Bool.false_ne_true

end Entry

/-! ## Histories -/

def ShellNote.taken : ShellNote → List (BitVec 8)
  | .took (.got _ _ _ bytes) => bytes
  | _ => []

/-- The bytes that the task has read. -/
def tookBytes (log : List ShellNote) : List (BitVec 8) := log.flatMap ShellNote.taken

def ShellNote.command : ShellNote → Option (List (BitVec 8))
  | .handled line => some line
  | _ => none

/-- The commands that it has carried out. -/
def handledLines (log : List ShellNote) : List (List (BitVec 8)) := log.filterMap ShellNote.command

def Settings.note (s : Settings) : ShellNote → Settings
  | .handled line => s.after line
  | .set lflag => { s with lflag := lflag &&& ttyLflagSupported }
  | _ => s

/-- What the commands and the other tasks have set, beginning with the settings at boot. -/
def settingsOf (log : List ShellNote) : Settings := log.foldl Settings.note ⟨7, klogLevelInfo⟩

/-- What a history says about the task. -/
structure Shell.Told (w : Shell) (log : List ShellNote) (lines : List (List (BitVec 8)))
    (pending : List (BitVec 8)) : Prop where
  isLines : IsLines (tookBytes log) lines pending
  handled : handledLines log = lines.map shellLine
  keeps : w.Keeps pending
  settings : w.settings = settingsOf log

section Told

variable {w u : Shell} {log notes : List ShellNote} {lines : List (List (BitVec 8))}
  {pending : List (BitVec 8)}

/-- Notes that the task has not made. -/
theorem Shell.Told.others (h : w.Told log lines pending)
    (hnotes : ∀ x ∈ notes, x.taken = [] ∧ x.command = none) {pending' : List (BitVec 8)}
    (hpending : pending' = pending) (hkeeps : u.Keeps pending')
    (hsettings : u.settings = notes.foldl Settings.note w.settings) :
    u.Told (log ++ notes) lines pending' := by
  subst hpending
  refine ⟨?_, ?_, hkeeps, ?_⟩
  · rw [tookBytes, List.flatMap_append,
      List.flatMap_eq_nil_iff.mpr fun x hx => (hnotes x hx).1, List.append_nil]
    exact h.isLines
  · rw [handledLines, List.filterMap_append,
      List.filterMap_eq_nil_iff.mpr fun x hx => (hnotes x hx).2, List.append_nil]
    exact h.handled
  · rw [hsettings, h.settings, settingsOf, settingsOf, List.foldl_append]

/-- The task takes a byte that it has read, and a line end has its line carried out. -/
theorem Shell.Told.take (h : w.Told log lines pending) (htesting : w.testing = false)
    (c : BitVec 8) : ∃ u lines' pending', initTakeByte c w = some u ∧
      u.Told (log ++ .took (.got 1 true 1 [c]) :: if c = asciiLf then [.handled w.command] else [])
        lines' pending' := by
  by_cases hc : c = asciiLf
  · subst hc
    obtain ⟨u, screen, htake, hkeeps, htty, hlevel, -⟩ := takeByte_lf h.keeps htesting
    refine ⟨u, lines ++ [pending], [], htake, ?_, ?_, hkeeps, ?_⟩
    · rw [if_pos rfl, tookBytes, List.flatMap_append]
      exact h.isLines.lf
    · rw [if_pos rfl, handledLines, List.filterMap_append, h.keeps.command htesting,
        List.map_append, ← h.handled]
      rfl
    · have hu : u.settings = w.settings.after (shellLine pending) := by
        rw [Shell.settings, Shell.lflag, htty, hlevel]
        rfl
      rw [hu, h.settings, if_pos rfl, settingsOf, settingsOf, List.foldl_append,
        h.keeps.command htesting]
      rfl
  · obtain ⟨u, htake, hkeeps, htty, hlevel, -⟩ := takeByte_char h.keeps htesting hc
    refine ⟨u, lines, pending ++ [c], htake, ?_, ?_, hkeeps, ?_⟩
    · rw [if_neg hc, tookBytes, List.flatMap_append]
      exact h.isLines.char hc
    · rw [if_neg hc, handledLines, List.filterMap_append]
      exact (List.append_nil _).trans h.handled
    · have hu : u.settings = w.settings := by
        rw [Shell.settings, Shell.lflag, htty, hlevel]
        rfl
      rw [hu, h.settings, if_neg hc, settingsOf, settingsOf, List.foldl_append]
      rfl

/-- The task carries on. -/
theorem Shell.Told.entry (h : w.Told log lines pending) (htesting : w.testing = false) :
    ∃ u lines' pending', initTaskEntry w = some u ∧
      u.Told (log ++ shellNotes w .entry) lines' pending' := by
  obtain ⟨hsame, htest, -, -⟩ := readByte_eq w
  rcases taskEntry_cases w with ⟨hnotes, hentry⟩ | ⟨c, hnotes, hentry⟩
  · refine ⟨w.readByte, lines, pending, hentry, ?_⟩
    rw [hnotes]
    exact h.others (by simp [ShellNote.taken, ShellNote.command]) rfl h.keeps.readByte hsame
  · rw [hentry, hnotes]
    rw [htesting] at htest
    have hcommand : w.command = w.readByte.command :=
      (h.keeps.command htesting).trans (h.keeps.readByte.command htest).symm
    have htold : w.readByte.Told log lines pending :=
      ⟨h.isLines, h.handled, h.keeps.readByte, hsame.trans h.settings⟩
    rw [hcommand]
    exact htold.take htest c

theorem consoleCalls_lflag {t t' : Tty} {call : ConsoleCall} (hs : consoleCalls.step t call t') :
    t'.console.lflag =
      match call with
      | .setLflag lflag => lflag &&& ttyLflagSupported
      | _ => t.console.lflag := by
  cases call with
  | feed ch =>
    obtain rfl : t' = consoleRxFeed ch t := hs
    exact (congrArg ConsoleView.lflag (feed_view ch t)).trans (t.console.view.feed_lflag ch)
  | read len nonblock =>
    obtain rfl : t' = (consoleRead len nonblock t).2.2 := hs
    exact read_lflag len nonblock t
  | setLflag lflag =>
    obtain rfl : t' = consoleTtySetLflag lflag t := hs
    rfl
  | other => exact congrArg Console.lflag hs

theorem Shell.Told.step (h : w.Told log lines pending) {l : ShellLabel}
    (hs : initShell.step w l u) :
    ∃ lines' pending', u.Told (log ++ shellNotes w l) lines' pending' := by
  cases l with
  | entry =>
    obtain ⟨htesting, hentry⟩ := hs
    obtain ⟨u', lines', pending', hentry', htold⟩ := h.entry htesting
    obtain rfl : u' = u := Option.some.inj (hentry'.symm.trans hentry)
    exact ⟨lines', pending', htold⟩
  | testRead len nonblock =>
    obtain ⟨htesting, rfl⟩ := hs
    refine ⟨lines, pending, h.others (by simp [shellNotes, lineNotes, ShellNote.taken,
      ShellNote.command]) rfl ⟨h.keeps.room, h.keeps.text, h.keeps.testing⟩ ?_⟩
    have hlflag := read_lflag len nonblock w.tty
    simp only [Shell.settings, Shell.lflag, hlflag]
    rfl
  | testEnd =>
    obtain ⟨htesting, rfl⟩ := hs
    obtain ⟨screen, hend⟩ := initEndCmd_eq { w with testing := false }
    rw [hend]
    refine ⟨lines, [], h.others (by simp [shellNotes]) (h.keeps.testing htesting).symm ?_ rfl⟩
    refine ⟨fun _ => ?_, fun _ => rfl, fun _ => rfl⟩
    change (0 : BitVec 32).toNat < 128
    decide
  | others call =>
    obtain ⟨t, hcall, rfl⟩ := hs
    have hlflag := consoleCalls_lflag hcall
    refine ⟨lines, pending, h.others ?_ rfl ⟨h.keeps.room, h.keeps.text, h.keeps.testing⟩ ?_⟩
    · cases call <;> simp [shellNotes, lineNotes, ShellNote.taken, ShellNote.command]
    · rw [Shell.settings, Shell.lflag]
      dsimp only
      rw [hlflag]
      cases call <;> rfl

end Told

theorem told_init {w : Shell} (hw : initShell.init w) : w.Told [] [] [] := by
  obtain ⟨t₀, line, rfl⟩ := hw
  refine ⟨⟨rfl, by simp, by simp⟩, rfl, ⟨fun _ => ?_, fun _ => rfl, nofun⟩, rfl⟩
  change (0 : BitVec 32).toNat < 128
  decide

theorem shell_told {w : Shell} {log : List ShellNote}
    (h : Reachable (initShell.logged shellNotes) (w, log)) :
    ∃ lines pending, w.Told log lines pending := by
  refine h.invariant (P := fun p => ∃ lines pending, p.1.Told p.2 lines pending) ?_ ?_
  · rintro ⟨w, log⟩ ⟨hw, rfl⟩
    exact ⟨[], [], told_init hw⟩
  · rintro ⟨w, log⟩ l ⟨u, log'⟩ ⟨lines, pending, hI⟩ ⟨hs, rfl⟩
    exact hI.step hs

/-- In every order of the task, its self test, the keyboard and the other tasks, the commands
that the task carries out are the lines of the bytes that it reads, each once and in order, and
what is set is what these commands and the other tasks set. The line never leaves its array. -/
theorem init_task_handles_lines {w : Shell} {log : List ShellNote}
    (h : Reachable (initShell.logged shellNotes) (w, log)) :
    ∃ lines pending, IsLines (tookBytes log) lines pending ∧
      handledLines log = lines.map shellLine ∧ w.settings = settingsOf log ∧
      (w.testing = false → w.init.text = shellLine pending ∧ (initTaskEntry w).isSome) := by
  obtain ⟨lines, pending, htold⟩ := shell_told h
  refine ⟨lines, pending, htold.isLines, htold.handled, htold.settings, fun htesting => ?_⟩
  obtain ⟨u, -, -, hentry, -⟩ := htold.entry htesting
  exact ⟨htold.keeps.text htesting, by rw [hentry]; rfl⟩

section Steps

variable {w : Shell} {log : List ShellNote}

theorem reachable_feed (h : Reachable (initShell.logged shellNotes) (w, log)) (c : BitVec 8) :
    Reachable (initShell.logged shellNotes) ({ w with tty := consoleRxFeed c w.tty },
      log ++ shellNotes w (.others (.feed c))) :=
  h.step (l := .others (.feed c)) ⟨⟨_, rfl, rfl⟩, rfl⟩

theorem reachable_entry (h : Reachable (initShell.logged shellNotes) (w, log))
    (htesting : w.testing = false) (hsome : (initTaskEntry w).isSome = true) :
    Reachable (initShell.logged shellNotes) ((initTaskEntry w).get hsome,
      log ++ shellNotes w .entry) :=
  h.step (l := .entry) ⟨⟨htesting, (Option.some_get hsome).symm⟩, rfl⟩

end Steps

/-- A line is typed, and is carried out. -/
theorem init_task_handles_lines_typed : ∃ w log lines pending,
    Reachable (initShell.logged shellNotes) (w, log) ∧ IsLines (tookBytes log) lines pending ∧
      handledLines log = [[0x61]] ∧ lines.map shellLine = [[0x61]] := by
  have hstart : Reachable (initShell.logged shellNotes)
      (⟨consoleInit .zero, klogLevelInfo, ⟨fun _ => 0, 0, 0⟩, false⟩, []) :=
    .of_init ⟨⟨.zero, _, rfl⟩, rfl⟩
  have htyped := reachable_feed (reachable_feed hstart 0x61) asciiLf
  have hread := reachable_entry (reachable_entry htyped rfl (by decide)) (by decide) (by decide)
  obtain ⟨lines, pending, hlines, hhandled, -⟩ := init_task_handles_lines hread
  refine ⟨_, _, lines, pending, hread, hlines, ?_, hhandled.symm.trans ?_⟩
  · decide
  · decide

end LampVm
