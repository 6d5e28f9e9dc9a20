import UringProactor.Prelude.Lines
import UringProactor.Prelude.Monitor
import UringProactor.Util.LogRecords

/-!
# The lines of the log

`Logger::log` formats a line in a buffer of fixed size and appends it as a record.  In the
buffers of a thread the records follow one another, and only the newline at the end of each
tells where the next begins.  A line that does not fit into the buffer is cut, and the cut takes
its newline: the stream of a thread is separable into its records exactly when all of them fit.

The calls of `log` are watched by a monitor, which records the calls whose records were copied
into the buffers of their threads; no step reads the record.
-/

open scoped List

namespace Proactor

/-- The bytes of an ASCII text. -/
def ascii (text : String) : List UInt8 := text.toList.map Char.toUInt8

/-- The byte `'\n'`. -/
def newline : UInt8 := 10

/-- The byte `' '`. -/
def space : UInt8 := 32

/-- `Logger::LogLevel`. -/
inductive LogLevel where
  | debug
  | info
  | warning
  | error
deriving DecidableEq

namespace LogLevel

/-- The number of a level. -/
def toNat : LogLevel → ℕ
  | .debug => 0
  | .info => 1
  | .warning => 2
  | .error => 3

/-- `level_str` in `Logger::log`. -/
def levelStr : LogLevel → List UInt8
  | .debug => ascii "[DEBUG]"
  | .info => ascii "[INFO]"
  | .warning => ascii "[WARNING]"
  | .error => ascii "[ERROR]"

theorem newline_not_mem_levelStr (level : LogLevel) :
  newline ∉ level.levelStr
  := by
  cases level <;> decide

end LogLevel

/-! ### `snprintf` -/

/-- What `%s` prints of the bytes in a buffer. -/
def cString (buf : List UInt8) : List UInt8 := buf.takeWhile (· ≠ 0)

/-- What `%.*s` prints; a negative precision counts as none. -/
def cStringUpTo (precision : Int) (buf : List UInt8) : List UInt8 :=
  cString (if precision < 0 then buf else buf.take precision.toNat)

/-- `snprintf` of a text into a buffer of `size` bytes: the result, which is negative when the
length of the text is no `int`, and the string in the buffer. -/
def snprintf (size : ℕ) (text : List UInt8) : Int × List UInt8 :=
  (if text.length < 2 ^ 31 then text.length else -1, text.take (size - 1))

theorem mem_of_mem_cString {x : UInt8} {buf : List UInt8} (h : x ∈ cString buf) :
  x ∈ buf
  := (List.takeWhile_sublist _).subset h

theorem mem_of_mem_cStringUpTo {x : UInt8} {buf : List UInt8} {precision : Int}
    (h : x ∈ cStringUpTo precision buf) :
  x ∈ buf
  := by
  have hmem := mem_of_mem_cString h
  split at hmem
  · exact hmem
  · exact List.mem_of_mem_take hmem

/-! ### `Logger::log` -/

/-- A call of `Logger::log`: its arguments, the `log_level_` it finds, and what `get_datetime`
leaves in `ts_buf`. -/
structure LogCall where
  level : LogLevel
  message : List UInt8
  logLevel : LogLevel
  tsBuf : List UInt8
deriving DecidableEq

namespace LogCall

variable {c : LogCall} {r : Record}

/-- The size of `line`. -/
def lineSize : ℕ := 320

/-- The timestamp and the level, as they begin the line. -/
def header (c : LogCall) : List UInt8 := cString c.tsBuf ++ space :: c.level.levelStr

/-- The line without its newline.  `message.size()` is converted to `int`. -/
def body (c : LogCall) : List UInt8 :=
  c.header ++ space :: cStringUpTo (BitVec.ofNat 32 c.message.length).toInt c.message

/-- The text that is formatted. -/
def text (c : LogCall) : List UInt8 := c.body ++ [newline]

/-- `Logger::log`: the record it appends, if any. -/
def log (c : LogCall) : Option Record :=
  if c.level.toNat < c.logLevel.toNat then
    none
  else
    let (n, line) := snprintf lineSize c.text
    if 0 < n then
      some (line.take (if n < lineSize then n.toNat else lineSize - 1))
    else
      none

/-- The message contains neither a newline nor NUL, and the timestamp is one line. -/
def Clean (c : LogCall) : Prop :=
  (∀ x ∈ c.message, x ≠ newline ∧ x ≠ 0) ∧ newline ∉ c.tsBuf

instance (c : LogCall) : Decidable c.Clean := inferInstanceAs (Decidable (_ ∧ _))

/-- The formatted text fits into `line`. -/
def Fits (c : LogCall) : Prop := c.text.length < lineSize

instance (c : LogCall) : Decidable c.Fits := inferInstanceAs (Decidable (_ < _))

theorem header_prefix_body :
  c.header <+: c.body
  := List.prefix_append ..

theorem Clean.newline_not_mem_body (h : c.Clean) :
  newline ∉ c.body
  := by
  rw [body, header]
  simp only [List.mem_append, List.mem_cons, not_or]
  refine ⟨⟨?_, by decide, c.level.newline_not_mem_levelStr⟩, by decide, ?_⟩
  · exact fun hmem => h.2 (mem_of_mem_cString hmem)
  · exact fun hmem => (h.1 _ (mem_of_mem_cStringUpTo hmem)).1 rfl

/-- The record is the text, as far as it fits. -/
theorem eq_take_of_log (h : c.log = some r) :
  r = c.text.take (lineSize - 1)
  := by
  rw [log] at h
  split at h
  case isTrue => cases h
  case isFalse =>
    by_cases hlen : c.text.length < 2 ^ 31
    · simp only [snprintf, if_pos hlen] at h
      split at h
      case isFalse => cases h
      case isTrue =>
        rw [← Option.some.inj h, List.take_take]
        split
        case isTrue hlt =>
          rw [Int.toNat_natCast, Nat.min_eq_left (by omega), List.take_of_length_le (by omega),
            List.take_of_length_le (by omega)]
        case isFalse => rw [Nat.min_self]
    · simp only [snprintf, if_neg hlen] at h
      cases h

/-- A record that fits is a line that begins with the timestamp and the level of its call. -/
theorem isLine_of_fits (hclean : c.Clean) (h : c.log = some r) (hfits : c.Fits) :
  IsLine newline header c r
  := by
  use c.body
  refine ⟨?_, hclean.newline_not_mem_body, header_prefix_body⟩
  rw [eq_take_of_log h]
  apply List.take_of_length_le
  rw [Fits] at hfits
  omega

/-- A record that does not fit has lost its newline. -/
theorem newline_not_mem_of_not_fits (hclean : c.Clean) (h : c.log = some r) (hfits : ¬ c.Fits) :
  newline ∉ r
  := by
  rw [eq_take_of_log h]
  rw [Fits, text, List.length_append, List.length_singleton] at hfits
  rw [text, List.take_append_of_le_length (by omega)]
  exact fun hmem => hclean.newline_not_mem_body (List.mem_of_mem_take hmem)

end LogCall

/-! ### The record in hand -/

/-- The record that `append` hands a buffer over for. -/
def FlushFor.record? : FlushFor → Option Record
  | .append r _ => some r
  | .exit | .destroy => none

/-- The record that a thread in `append` may copy. -/
def LogPc.record? : LogPc → Option Record
  | .loadBack f | .setFlag f | .enqueue f | .publish f _ | .release f | .clearFlag f => f.record?
  | .switch r | .copy r => some r
  | _ => none

/-- A step of a thread keeps the record in hand or gives it up. -/
theorem LogThread.Advances.record? {t : ℕ} {queue : TicketQueue Flush} {finished : Bool}
    {th th' : LogThread} {effect : LogEffect} {r : Record}
    (h : Advances t queue finished th th' effect) (hr : th'.pc.record? = some r) :
  th.pc.record? = some r
  := by
  cases h with
  | @busy f hpc _ | @full f hpc _ | @release f hpc | @clearFlag f hpc =>
      rw [hpc]
      cases f with
      | append r' isFull => cases isFull <;> first | exact hr | cases hr
      | _ => cases hr
  | ready hpc _ | setFlag hpc | reserve hpc _ | publish hpc | switch hpc =>
      rw [hpc]
      exact hr
  | spin => exact hr
  | @waited i hpc _ => cases i <;> cases hr
  | _ => cases hr

theorem LogThread.record?_append {th : LogThread} {r : Record} {late : Bool} :
  (th.append r late).pc.record? = some r
  := by
  rcases th.append_cases r late with ⟨-, heq⟩ | ⟨isFull, -, heq⟩ <;>
  · rw [heq]
    rfl

namespace Logger

variable {s s' : Logger} {t : ℕ} {e : LogEvent}

/-- A thread calls `append` from outside of the logger. -/
theorem Steps.idle_of_append {r : Record} {late : Bool} (h : Steps s (.append t r late) s') :
  (s.threads t).pc = .idle
  := by
  cases h with
  | append _ _ hpc => exact hpc

/-- A record in hand after a step was so before, or the step is the call that brought it. -/
theorem Steps.record? (h : Steps s e s') (hown : Own s) {r : Record}
    (hr : (s'.threads t).pc.record? = some r) :
  (s.threads t).pc.record? = some r ∨ ∃ late, e = .append t r late
  := by
  have hset : ∀ {t' : ℕ} {th : LogThread},
      (t = t' → th.pc.record? = some r → (s.threads t).pc.record? = some r) →
      ((s.setThread t' th).threads t).pc.record? = some r →
      (s.threads t).pc.record? = some r := by
    intro t' th hth
    apply of_setThread (P := fun th' => th'.pc.record? = some r → (s.threads t).pc.record? = some r)
    · exact hth
    · exact fun _ => id
  cases h with
  | @append t' r' late hpc =>
      rcases eq_or_ne t t' with rfl | hne
      · right
        change (Function.update s.threads t _ t).pc.record? = some r at hr
        rw [Function.update_self, LogThread.record?_append] at hr
        cases hr
        exact ⟨late, rfl⟩
      · left
        apply hset _ hr
        exact fun heq => absurd heq hne
  | @exit t' hpc =>
      left
      apply hset _ hr
      rintro rfl hr
      rw [LogThread.exit] at hr
      split at hr
      · split at hr <;> cases hr
      · exact hr
  | @destroy t' hpc =>
      left
      apply hset _ hr
      rintro rfl hr
      rw [LogThread.destroy] at hr
      split at hr <;> cases hr
  | @thread t' th effect hadvance =>
      left
      rw [threads_apply] at hr
      apply hset _ hr
      rintro rfl
      exact hadvance.record?
  | backend hbacks =>
      left
      obtain ⟨bufs, heq, -⟩ := hown.emptied hbacks t
      rw [heq] at hr
      exact hr
  | complete len hw => exact .inl hr

/-- Only the copy of the record in hand adds to what a thread has logged. -/
theorem Steps.logged (h : Steps s e s') (t : ℕ) :
  (∃ r, e = .thread t ∧ (s.threads t).pc = .copy r ∧ s'.logged t = s.logged t ++ [r])
    ∨ (e = .thread t → ∀ r, (s.threads t).pc ≠ .copy r) ∧ s'.logged t = s.logged t
  := by
  cases h with
  | append | exit | destroy => exact .inr ⟨by simp, rfl⟩
  | @thread t' th effect hadvance =>
      rcases eq_or_ne t t' with rfl | hne
      · cases hadvance with
        | @copy r hpc =>
            left
            use r, rfl, hpc
            exact Function.update_self ..
        | _ =>
            right
            simp_all [apply, setThread]
      · right
        constructor
        · intro heq
          cases heq
          exact absurd rfl hne
        · cases effect with
          | copied r => exact Function.update_of_ne hne ..
          | _ => rfl
  | backend hbacks => exact .inr ⟨by simp, by rw [hbacks.untouched.logged]⟩
  | complete len hw => exact .inr ⟨by simp, rfl⟩

end Logger

/-! ### Calls -/

/-- An event of a logger whose threads call `log`: such a call, or any event but a call of
`append`. -/
inductive CallEvent where
  | log (t : ℕ) (c : LogCall) (late : Bool)
  | other (e : LogEvent)

/-- The last call of each thread, and its calls whose records were copied into its buffers. -/
structure CallRecord where
  current : ℕ → Option LogCall := fun _ => none
  accepted : ℕ → List LogCall := fun _ => []

/-- A logger whose threads call `log`, with the record of the calls. -/
abbrev Calling := Monitored Logger CallRecord

namespace Calling

variable {m m' : Calling} {t : ℕ} {e : CallEvent}

/-- One event of the logger.  A call that appends no record changes nothing. -/
def run (s : Logger) : CallEvent → Option (Unit × Logger)
  | .log t c late =>
      match c.log with
      | some r => (s.step (.append t r late)).map (fun s' => ((), s'))
      | none => if (s.threads t).pc = .idle then some ((), s) else none
  | .other (.append _ _ _) => none
  | .other e => (s.step e).map (fun s' => ((), s'))

/-- The record of the calls after an event. -/
def observe (s : Logger) (g : CallRecord) : CallEvent → CallRecord
  | .log t c _ => { g with current := Function.update g.current t (some c) }
  | .other (.thread t) =>
      match (s.threads t).pc, g.current t with
      | .copy _, some c =>
          { g with accepted := Function.update g.accepted t (g.accepted t ++ [c]) }
      | _, _ => g
  | .other _ => g

/-- One event, with its record. -/
def step (m : Calling) (e : CallEvent) : Option Calling :=
  Monitored.step run (fun s g e _ _ => observe s g e) m e

/-- The logger when its backend thread starts. -/
def start (files : ℕ → ℕ) : Calling := ⟨Logger.start files, {}⟩

/-- The condition on the messages and the timestamps. -/
def Clean (_ : Calling) : CallEvent → Prop
  | .log _ c _ => c.Clean
  | .other _ => True

instance (m : Calling) : ∀ e, Decidable (Clean m e)
  | .log _ c _ => inferInstanceAs (Decidable c.Clean)
  | .other _ => inferInstanceAs (Decidable True)

/-- What the records of the calls rest on: the record in hand is that of the last call, and
what a thread has logged are the records of its accepted calls. -/
structure Inv (m : Calling) : Prop where
  recorded : m.state.Recorded
  current : ∀ t r, (m.state.threads t).pc.record? = some r →
    ∃ c, m.record.current t = some c ∧ c.Clean ∧ c.log = some r
  logged : ∀ t, List.Forall₂ (fun c r => c.Clean ∧ c.log = some r) (m.record.accepted t)
    (m.state.logged t)

/-- A step is a call of `log`, which appends a record or not, or another event. -/
theorem step_cases (h : step m e = some m') :
  m'.record = observe m.state m.record e
    ∧ ((∃ t c late r, e = .log t c late ∧ c.log = some r
          ∧ m.state.Steps (.append t r late) m'.state)
      ∨ (∃ t c late, e = .log t c late ∧ (m.state.threads t).pc = .idle ∧ m'.state = m.state)
      ∨ ∃ e', e = .other e' ∧ m.state.Steps e' m'.state ∧ ∀ t r late, e' ≠ .append t r late)
  := by
  obtain ⟨⟨⟩, hrun, hrecord⟩ := Monitored.step_eq_some h
  refine ⟨hrecord, ?_⟩
  cases e with
  | log t c late =>
      rw [run] at hrun
      split at hrun
      case h_1 r hlog =>
        obtain ⟨s', hstep, heq⟩ := Option.map_eq_some_iff.mp hrun
        cases heq
        exact .inl ⟨t, c, late, r, rfl, hlog, Logger.step_cases hstep⟩
      case h_2 hlog =>
        split at hrun
        case isTrue hidle =>
          have hstate := (Prod.mk.inj (Option.some.inj hrun)).2
          exact .inr (.inl ⟨t, c, late, rfl, hidle, hstate.symm⟩)
        case isFalse => cases hrun
  | other e' =>
      right
      right
      use e', rfl
      cases e' with
      | append => cases hrun
      | _ =>
          obtain ⟨s', hstep, heq⟩ := Option.map_eq_some_iff.mp hrun
          cases heq
          exact ⟨Logger.step_cases hstep, nofun⟩

variable {s : Logger} {g : CallRecord} {c : LogCall} {r : Record} {e' : LogEvent}

theorem observe_log_self {late : Bool} :
  (observe s g (.log t c late)).current t = some c
  := Function.update_self ..

theorem observe_log_of_ne {t' : ℕ} {late : Bool} (h : t ≠ t') :
  (observe s g (.log t' c late)).current t = g.current t
  := Function.update_of_ne h ..

theorem observe_other_current :
  (observe s g (.other e')).current = g.current
  := by
  cases e' with
  | thread t =>
      rw [observe]
      split <;> rfl
  | _ => rfl

/-- A copy accepts the last call of its thread. -/
theorem observe_copy (hpc : (s.threads t).pc = .copy r) (hc : g.current t = some c) :
  (observe s g (.other (.thread t))).accepted t = g.accepted t ++ [c]
  := by
  rw [observe, hpc, hc]
  exact Function.update_self ..

theorem observe_of_not_copy (h : e' = .thread t → ∀ r, (s.threads t).pc ≠ .copy r) :
  (observe s g (.other e')).accepted t = g.accepted t
  := by
  cases e' with
  | thread t' =>
      rw [observe]
      split
      case h_1 r c hpc hc =>
        have hne : t ≠ t' := by
          rintro rfl
          exact h rfl r hpc
        exact Function.update_of_ne hne ..
      case h_2 => rfl
  | _ => rfl

/-- The record in hand is that of the last call, after every step. -/
theorem Inv.current_step (h : Inv m) (hclean : Clean m e) (hstep : step m e = some m') (t : ℕ)
    (hr : (m'.state.threads t).pc.record? = some r) :
  ∃ c, m'.record.current t = some c ∧ c.Clean ∧ c.log = some r
  := by
  obtain ⟨hrecord, ⟨t', c, late, r', rfl, hlog, hsteps⟩ | ⟨t', c, late, rfl, hidle, hstate⟩
    | ⟨e', rfl, hsteps, hother⟩⟩ := step_cases hstep
  · have hkeeps := hsteps.record? h.recorded.own hr
    rcases eq_or_ne t t' with rfl | hne
    · have hnew : r' = r := by
        rcases hkeeps with hr | ⟨late', heq⟩
        · rw [hsteps.idle_of_append] at hr
          cases hr
        · cases heq
          rfl
      subst hnew
      rw [hrecord]
      exact ⟨c, observe_log_self, hclean, hlog⟩
    · have hr : (m.state.threads t).pc.record? = some r := by
        rcases hkeeps with hr | ⟨late', heq⟩
        · exact hr
        · cases heq
          exact absurd rfl hne
      rw [hrecord, observe_log_of_ne hne]
      apply h.current t r hr
  · rw [hstate] at hr
    have hne : t ≠ t' := by
      rintro rfl
      rw [hidle] at hr
      cases hr
    rw [hrecord, observe_log_of_ne hne]
    apply h.current t r hr
  · rw [hrecord, observe_other_current]
    apply h.current t r
    rcases hsteps.record? h.recorded.own hr with hr | ⟨late, heq⟩
    · exact hr
    · exact absurd heq (hother t r late)

/-- What a thread has logged are the records of its accepted calls, after every step. -/
theorem Inv.logged_step (h : Inv m) (hstep : step m e = some m') (t : ℕ) :
  List.Forall₂ (fun c r => c.Clean ∧ c.log = some r) (m'.record.accepted t) (m'.state.logged t)
  := by
  have hlogged := h.logged t
  obtain ⟨hrecord, ⟨t', c, late, r', rfl, hlog, hsteps⟩ | ⟨t', c, late, rfl, hidle, hstate⟩
    | ⟨e', rfl, hsteps, hother⟩⟩ := step_cases hstep
  · rw [hrecord]
    rcases hsteps.logged t with ⟨r, heq, -⟩ | ⟨-, heq⟩
    · cases heq
    · rw [heq]
      exact hlogged
  · rw [hrecord, hstate]
    exact hlogged
  · rw [hrecord]
    rcases hsteps.logged t with ⟨r, rfl, hpc, heq⟩ | ⟨hnot, heq⟩
    · obtain ⟨c, hc, hcall⟩ := h.current t r (by rw [hpc]; rfl)
      rw [heq, observe_copy hpc hc]
      apply List.rel_append hlogged
      exact .cons hcall .nil
    · rw [heq, observe_of_not_copy hnot]
      exact hlogged

theorem Inv.step (h : Inv m) (hclean : Clean m e) (hstep : step m e = some m') :
  Inv m'
  := by
  constructor
  case recorded =>
    obtain ⟨-, ⟨_, _, _, _, -, -, hsteps⟩ | ⟨_, _, _, -, -, hstate⟩ | ⟨_, -, hsteps, -⟩⟩ :=
      step_cases hstep
    · exact h.recorded.step hsteps
    · rw [hstate]
      exact h.recorded
    · exact h.recorded.step hsteps
  case current => exact fun t r hr => h.current_step hclean hstep t hr
  case logged => exact h.logged_step hstep

theorem inv_start (files : ℕ → ℕ) :
  Inv (start files)
  := ⟨Logger.recorded_start files, nofun, fun _ => .nil⟩

theorem inv_of_reaches {files : ℕ → ℕ} (h : Reaches step Clean (start files) m) :
  Inv m
  := h.invariant (inv_start files) (fun _ _ _ hinv hclean hstep => hinv.step hclean hstep)

/-- In every run whose messages contain neither a newline nor NUL: the bytes that a thread has
copied into its buffers consist of one line for each of its accepted calls, which begins with
the timestamp and the level of the call, exactly when the formatted text of each of these calls
fits into `line`.  Then the bytes in the buffers of the thread, enqueued or not, consist of such
lines for some of the calls, in their order. -/
theorem records_separable_iff {files : ℕ → ℕ} (hreach : Reaches step Clean (start files) m)
    (t : ℕ) :
  (Separable newline LogCall.header (m.record.accepted t) (m.state.logged t).flatten
      ↔ ∀ c ∈ m.record.accepted t, c.Fits)
    ∧ ((∀ c ∈ m.record.accepted t, c.Fits) → ∃ calls, calls <+ m.record.accepted t
      ∧ Separable newline LogCall.header calls (m.state.kept t).flatten)
  := by
  have hinv := inv_of_reaches hreach
  have hrecords : ∀ {calls : List LogCall} {records : List Record},
      List.Forall₂ (fun c r => c.Clean ∧ c.log = some r) calls records →
      (Separable newline LogCall.header calls records.flatten ↔ ∀ c ∈ calls, c.Fits) := by
    intro calls records hcalls
    apply Separable.flatten_iff
    apply hcalls.imp
    rintro c r ⟨hclean, hlog⟩
    exact ⟨LogCall.isLine_of_fits hclean hlog, LogCall.newline_not_mem_of_not_fits hclean hlog⟩
  refine ⟨hrecords (hinv.logged t), ?_⟩
  intro hfits
  obtain ⟨calls, hsub, hcalls⟩ := exists_sublist_of_forall₂ (hinv.logged t)
    (hinv.recorded.sublist t)
  use calls, hsub
  apply (hrecords hcalls).mpr
  exact fun c hc => hfits c (hsub.subset hc)

/-- A call of `log_info` with a message. -/
def info (message : List UInt8) : LogCall where
  level := .info
  message := message
  logLevel := .debug
  tsBuf := ascii "[2024-05-06 07:08:09]" ++ [0, 0, 0]

/-- A thread logs two messages, the second a second later, so that it goes to the other buffer:
the stream has two lines. -/
theorem records_separable_two_calls :
  ∃ m, Reaches step Clean (start fun _ => 0) m
    ∧ m.record.accepted 0 = [info [97], info [98]]
    ∧ (m.state.threads 0).writeIdx = true
    ∧ Separable newline LogCall.header [info [97], info [98]] (m.state.logged 0).flatten
  := by
  obtain ⟨m, hreach, haccepted, hidx⟩ : ∃ m, Reaches step Clean (start fun _ => 0) m
      ∧ m.record.accepted 0 = [info [97], info [98]]
      ∧ (m.state.threads 0).writeIdx = true := by
    apply Reaches.exists_of_follow [.log 0 (info [97]) false, .other (.thread 0),
      .log 0 (info [98]) true, .other (.thread 0), .other (.thread 0), .other (.thread 0),
      .other (.thread 0), .other (.thread 0), .other (.thread 0), .other (.thread 0)]
    decide +kernel
  use m, hreach, haccepted, hidx
  rw [← haccepted]
  apply (records_separable_iff hreach 0).1.mpr
  rw [haccepted]
  decide

/-- A message of 290 bytes makes a text of 320: the newline is cut off, and the next record goes
on in the same line. -/
theorem records_run_together :
  ∃ m, Reaches step Clean (start fun _ => 0) m
    ∧ m.record.accepted 0 = [info (List.replicate 290 97), info [98]]
    ∧ (m.state.logged 0).flatten.count newline = 1
    ∧ ¬ Separable newline LogCall.header (m.record.accepted 0) (m.state.logged 0).flatten
  := by
  obtain ⟨m, hreach, haccepted, hcount⟩ : ∃ m, Reaches step Clean (start fun _ => 0) m
      ∧ m.record.accepted 0 = [info (List.replicate 290 97), info [98]]
      ∧ (m.state.logged 0).flatten.count newline = 1 := by
    apply Reaches.exists_of_follow [.log 0 (info (List.replicate 290 97)) false,
      .other (.thread 0), .log 0 (info [98]) false, .other (.thread 0)]
    decide +kernel
  use m, hreach, haccepted, hcount
  intro hseparable
  have hlines := hseparable.count_eq
  rw [hcount, haccepted] at hlines
  cases hlines

end Calling

end Proactor
