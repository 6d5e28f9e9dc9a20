import UringProactor.Prelude.Machine
import UringProactor.Prelude.Monitor
import UringProactor.Util.LogFiles

/-!
# What is on disk

The backend gives a buffer back when it sees the completion of its write, whatever the result
is.  A monitor records the bytes that the kernel puts into the log files.

* While files are opened, their sizes found and every write completes in full, a buffer is
  cleared only when all its bytes are on disk at the offset of its write, what was written
  stays there, and a position of a file without a byte belongs to a write that is not completed.
* A write that is short or fails loses bytes and leaves a gap in the file.
-/

open scoped List

namespace Proactor

/-- The bytes of a write. -/
def LogWrite.bytes (w : LogWrite) : List UInt8 := w.records.flatten

theorem LogWrite.length_bytes (w : LogWrite) :
  w.bytes.length = w.length
  := List.length_flatten

/-- All bytes of the write are on disk, at its offset. -/
def OnDisk (disk : ℕ → ℕ → Option UInt8) (w : LogWrite) : Prop :=
  Store.read (disk w.file) w.offset w.length = w.bytes.map some

instance (disk : ℕ → ℕ → Option UInt8) (w : LogWrite) : Decidable (OnDisk disk w) :=
  inferInstanceAs (Decidable (_ = _))

/-- The kernel puts `data` into the file of a write, at its offset. -/
def putOnDisk (disk : ℕ → ℕ → Option UInt8) (w : LogWrite) (data : List UInt8) :
    ℕ → ℕ → Option UInt8 :=
  Function.update disk w.file (Store.write (disk w.file) w.offset (data.map some))

theorem onDisk_put_self (disk : ℕ → ℕ → Option UInt8) (w : LogWrite) :
  OnDisk (putOnDisk disk w w.bytes) w
  := by
  have hread := Store.read_write_self (disk w.file) w.offset (w.bytes.map some)
  rw [List.length_map, w.length_bytes] at hread
  rw [OnDisk, putOnDisk, Function.update_self]
  exact hread

/-- A write stays on disk when one that it does not overlap is put there. -/
theorem OnDisk.put {disk : ℕ → ℕ → Option UInt8} {w w' : LogWrite} (h : OnDisk disk w)
    (hdisjoint : w.file = w'.file →
      w.offset + w.length ≤ w'.offset ∨ w'.offset + w'.length ≤ w.offset) :
  OnDisk (putOnDisk disk w' w'.bytes) w
  := by
  rw [OnDisk, putOnDisk]
  rcases eq_or_ne w.file w'.file with hfile | hne
  · rw [hfile, Function.update_self, Store.read_write_of_disjoint, ← hfile]
    · exact h
    · rw [List.length_map, w'.length_bytes]
      exact hdisjoint hfile
  · rw [Function.update_of_ne hne]
    exact h

/-- Every position of a write on disk has a byte. -/
theorem OnDisk.ne_none {disk : ℕ → ℕ → Option UInt8} {w : LogWrite} (h : OnDisk disk w) {p : ℕ}
    (hstart : w.offset ≤ p) (hend : p < w.offset + w.length) :
  disk w.file p ≠ none
  := by
  intro hnone
  have hmem : disk w.file p ∈ Store.read (disk w.file) w.offset w.length := by
    apply List.mem_map.mpr
    use p - w.offset
    constructor
    · exact List.mem_range.mpr (by omega)
    · rw [Nat.add_sub_cancel' hstart]
  rw [h, hnone] at hmem
  simp at hmem

namespace Logger

variable {s s' : Logger} {n : ℕ} {e : LogEvent} {files : ℕ → ℕ} {b : BufId} {w w' : LogWrite}

/-- The write that `submit_buf` prepared last for a buffer. -/
def assigned (s : Logger) (b : BufId) : Option LogWrite :=
  (s.writes.filter (fun w => w.buf = b)).getLast?

theorem assigned_concat (hwrites : s'.writes = s.writes ++ [w]) (b : BufId) :
  s'.assigned b = if w.buf = b then some w else s.assigned b
  := by
  rw [assigned, hwrites, List.filter_append]
  split
  case isTrue hb => simp [hb]
  case isFalse hb => simp [hb, assigned]

theorem assigned_congr (hwrites : s'.writes = s.writes) (b : BufId) :
  s'.assigned b = s.assigned b
  := by
  rw [assigned, assigned, hwrites]

/-! ### From the completion of a write to the clearing of its buffer -/

/-- The writes in the ring are the last ones of their buffers, and a buffer whose write is
completed holds the records of the write until it is cleared. -/
structure Traced (s : Logger) : Prop where
  assigned : ∀ w ∈ s.sq ++ (s.submitted ++ s.cq), s.assigned w.buf = some w
  completed : ∀ w ∈ s.cq, w ∈ s.written ∧ (s.buf w.buf).records = w.records
  clearing : ∀ b reaped, s.task = .clear b reaped →
    ∃ w ∈ s.written, s.assigned b = some w ∧ (s.buf b).records = w.records

/-- A step that adds nothing to the ring and begins no clearing. -/
theorem Traced.frame (h : Traced s) (hown : Own s) (hstep : Steps s e s')
    (hring : s'.sq ++ (s'.submitted ++ s'.cq) ⊆ s.sq ++ (s.submitted ++ s.cq))
    (hcq : s'.cq = s.cq) (hwrites : s'.writes = s.writes) (hwritten : s'.written = s.written)
    (htask : ∀ b reaped, s'.task = .clear b reaped → s.task = .clear b reaped) :
  Traced s'
  := by
  constructor
  case assigned =>
    intro w hw
    rw [assigned_congr hwrites]
    apply h.assigned w (hring hw)
  case completed =>
    intro w hw
    rw [hcq] at hw
    obtain ⟨hmem, hrecords⟩ := h.completed w hw
    obtain ⟨hheld, hclear⟩ := hown.of_mem_ring (w := w) (by simp [hw])
    rw [hwritten, hown.records_eq hstep hheld (fun reaped ht => absurd ht (hclear reaped))]
    exact ⟨hmem, hrecords⟩
  case clearing =>
    intro b reaped hclear
    have hbefore := htask b reaped hclear
    obtain ⟨w, hw, hassigned, hrecords⟩ := h.clearing b reaped hbefore
    have hkept : (s'.buf b).records = (s.buf b).records := by
      apply hown.records_eq hstep (mem_held_of_clear hbefore)
      intro reaped' hbefore'
      rw [hbefore] at hbefore'
      cases hbefore'
      exact hclear
    rw [hkept, hwritten, assigned_congr hwrites]
    use w

/-- The backend sees a completion and turns to the buffer. -/
theorem Traced.reap {cq : List LogWrite} (h : Traced s) (hcq : s.cq = w :: cq) :
  Traced { s with cq := cq, task := .clear w.buf true }
  := by
  have hring : ∀ w' ∈ s.sq ++ (s.submitted ++ cq), w' ∈ s.sq ++ (s.submitted ++ s.cq) := by
    intro w' hw'
    rw [hcq]
    simp only [List.mem_append, List.mem_cons] at hw' ⊢
    tauto
  constructor
  case assigned => exact fun w' hw' => h.assigned w' (hring w' hw')
  case completed =>
    intro w' hw'
    apply h.completed w'
    rw [hcq]
    exact List.mem_cons_of_mem _ hw'
  case clearing =>
    intro b reaped htask
    cases htask
    have hmem : w ∈ s.cq := by
      rw [hcq]
      exact List.mem_cons_self
    obtain ⟨hwritten, hrecords⟩ := h.completed w hmem
    exact ⟨w, hwritten, h.assigned w (by simp [hmem]), hrecords⟩

/-- The backend prepares a write. -/
theorem Traced.prepare {f : Flush} (h : Traced s) (hown : Own s) (htask : s.task = .submitBuf f)
    (hbuf : w.buf = f.buf) (offset : ℕ) :
  Traced { s with
    task := .none
    sq := s.sq ++ [w]
    offset := offset
    inFlight := s.inFlight + 1
    writes := s.writes ++ [w] }
  := by
  constructor
  case assigned =>
    intro w' hw'
    rw [assigned_concat rfl]
    split
    case isTrue heq =>
      -- the buffer is not yet in the ring
      have hring : w' ∉ s.sq ++ (s.submitted ++ s.cq) := by
        intro hmem
        have hnodup := hown.nodup
        rw [held, writing, htask] at hnodup
        apply (List.nodup_cons.mp hnodup.of_append_right).1
        rw [← hbuf, heq]
        exact List.mem_map_of_mem hmem
      simp only [List.mem_append, List.mem_singleton] at hw' hring
      rw [show w' = w by tauto]
    case isFalse hne =>
      apply h.assigned w'
      simp only [List.mem_append, List.mem_singleton] at hw' ⊢
      rcases hw' with (hw' | rfl) | hw'
      · exact .inl hw'
      · exact absurd rfl hne
      · exact .inr hw'
  case completed => exact h.completed
  case clearing => simp

/-- The kernel completes a write. -/
theorem Traced.complete {i : ℕ} {sizes : ℕ → ℕ} (h : Traced s) (hw : s.submitted[i]? = some w)
    (hrecords : (s.buf w.buf).records = w.records) :
  Traced { s with
    submitted := s.submitted.eraseIdx i
    cq := s.cq ++ [w]
    files := sizes
    written := s.written ++ [{ w with records := (s.buf w.buf).records }] }
  := by
  have hmem : w ∈ s.submitted := List.mem_of_getElem? hw
  have hsame : ({ w with records := (s.buf w.buf).records } : LogWrite) = w := by
    rw [hrecords]
  rw [hsame]
  constructor
  case assigned =>
    intro w' hw'
    apply h.assigned w'
    simp only [List.mem_append, List.mem_singleton] at hw' ⊢
    rcases hw' with hw' | hw' | hw' | rfl
    · exact .inl hw'
    · exact .inr (.inl (List.mem_of_mem_eraseIdx hw'))
    · exact .inr (.inr hw')
    · exact .inr (.inl hmem)
  case completed =>
    intro w' hw'
    rcases List.mem_append.mp hw' with hw' | hw'
    · obtain ⟨hwritten, hrecords'⟩ := h.completed w' hw'
      exact ⟨List.mem_append_left _ hwritten, hrecords'⟩
    · rw [List.mem_singleton.mp hw']
      exact ⟨List.mem_append_right _ List.mem_cons_self, hrecords⟩
  case clearing =>
    intro b reaped htask
    obtain ⟨w', hw', hrest⟩ := h.clearing b reaped htask
    exact ⟨w', List.mem_append_left _ hw', hrest⟩

/-- Every step that finds the files in order keeps the invariant. -/
theorem Traced.step (h : Traced s) (hown : Own s) (hfiled : Filed files s)
    (hstep : Steps s e s') :
  Traced s'
  := by
  have hframe := h.frame hown hstep
  cases hstep with
  | append | exit | destroy =>
      exact hframe (List.Subset.refl _) rfl rfl rfl (fun _ _ => id)
  | @thread t th effect hadvance =>
      cases effect <;> exact hframe (List.Subset.refl _) rfl rfl rfl (fun _ _ => id)
  | backend hbacks =>
      cases hbacks with
      | openFirst | openNext =>
          rename_i opened _ _
          cases opened <;> exact hframe (List.Subset.refl _) rfl rfl rfl (fun _ _ => id)
      | submit | finalSubmit | settle =>
          apply hframe _ rfl rfl rfl (fun _ _ => id)
          intro w hw
          simp only [submitRing, List.mem_append, List.not_mem_nil, false_or] at hw ⊢
          tauto
      | reap htask hpc hcq => exact h.reap hcq
      | prepare htask hfd => exact h.prepare hown htask rfl _
      | drop htask hfd => exact absurd hfd (hfiled.fd_ne_none htask)
      | dequeue | clear | unflag =>
          exact hframe (List.Subset.refl _) rfl rfl rfl (by simp)
      | _ => exact hframe (List.Subset.refl _) rfl rfl rfl (fun _ _ => id)
  | complete len hw =>
      exact h.complete hw (hfiled.records_of_submitted (List.mem_of_getElem? hw))

theorem traced_start (files : ℕ → ℕ) :
  Traced (start files)
  := ⟨nofun, nofun, nofun⟩

/-- A completed write overlaps no write that is not completed. -/
theorem Filed.disjoint (h : Filed files s) (hw : w ∈ s.written) (hw' : w' ∈ s.submitted)
    (hfile : w.file = w'.file) :
  w.offset + w.length ≤ w'.offset ∨ w'.offset + w'.length ≤ w.offset
  := by
  let R : LogWrite → LogWrite → Prop := fun w w' => w.file = w'.file →
    w.offset + w.length ≤ w'.offset ∨ w'.offset + w'.length ≤ w.offset
  have hsymm : ∀ {w w' : LogWrite}, R w w' → R w' w := fun hR heq => (hR heq.symm).symm
  have hwrites : s.writes.Pairwise R := by
    rw [List.pairwise_iff_getElem]
    intro i j hi hj hij heq
    have hpairs := (h.layout s.writes[i].file).pairwise
    rw [writesTo, List.pairwise_filter, List.pairwise_iff_getElem] at hpairs
    left
    apply hpairs i j hi hj hij
    · exact decide_eq_true rfl
    · exact decide_eq_true heq.symm
  have hall := (h.written.pairwise_iff hsymm).mpr hwrites
  apply (List.pairwise_append.mp hall).2.2 w hw w' (List.mem_append_left _ hw') hfile

end Logger

/-! ### The disk -/

deriving instance DecidableEq for BackendTask

/-- The logger with the bytes that the kernel has put into the log files. -/
abbrev Stored := Monitored Logger (ℕ → ℕ → Option UInt8)

namespace Stored

variable {m m' : Stored} {n : ℕ} {files : ℕ → ℕ} {e : LogEvent}

/-- What is on disk after an event: the kernel puts the bytes it has written into the file. -/
def observe (s : Logger) (disk : ℕ → ℕ → Option UInt8) : LogEvent → ℕ → ℕ → Option UInt8
  | .complete i len =>
      match s.submitted[i]? with
      | some w => putOnDisk disk w ((s.buf w.buf).records.flatten.take len)
      | none => disk
  | _ => disk

/-- One event, with what it puts on disk. -/
def step (m : Stored) (e : LogEvent) : Option Stored :=
  Monitored.step (fun s e => (s.step e).map (fun s' => ((), s')))
    (fun s disk e _ _ => observe s disk e) m e

/-- The logger when its backend thread starts. -/
def start (files : ℕ → ℕ) : Stored := ⟨Logger.start files, fun _ _ => none⟩

/-- The condition of the runs of `n` threads in which the files are in order. -/
def Orderly (n : ℕ) (m : Stored) (e : LogEvent) : Prop :=
  Logger.Admits n m.state e ∧ Logger.Intact m.state e

instance (n : ℕ) (m : Stored) (e : LogEvent) : Decidable (Orderly n m e) :=
  inferInstanceAs (Decidable (_ ∧ _))

/-- The invariant: all that was written is on disk. -/
structure Inv (n : ℕ) (files : ℕ → ℕ) (m : Stored) : Prop where
  recorded : m.state.Recorded
  shutdown : m.state.Shutdown n
  filed : m.state.Filed files
  traced : m.state.Traced
  onDisk : ∀ w ∈ m.state.written, OnDisk m.record w

theorem step_cases (h : step m e = some m') :
  m.state.Steps e m'.state ∧ m'.record = observe m.state m.record e
  := by
  obtain ⟨⟨⟩, hrun, hrecord⟩ := Monitored.step_eq_some h
  obtain ⟨s', hs', heq⟩ := Option.map_eq_some_iff.mp hrun
  have hstate := (Prod.mk.inj heq).2
  rw [← hstate]
  exact ⟨Logger.step_cases hs', hrecord⟩

/-- All that was written is on disk, after every step. -/
theorem Inv.onDisk_step (h : Inv n files m) (hintact : m.state.Intact e)
    (hstep : m.state.Steps e m'.state) (hrecord : m'.record = observe m.state m.record e) :
  ∀ w ∈ m'.state.written, OnDisk m'.record w
  := by
  have hbefore := h.onDisk
  generalize m'.state = s' at hstep
  rw [hrecord]
  cases hstep with
  | append | exit | destroy => exact hbefore
  | @thread t th effect hadvance => cases effect <;> exact hbefore
  | backend hbacks =>
      rw [hbacks.untouched.written]
      exact hbefore
  | @complete i w len hw =>
      obtain rfl := hintact w hw
      have hmem : w ∈ m.state.submitted := List.mem_of_getElem? hw
      have hrecords := h.filed.records_of_submitted hmem
      have hdisk : observe m.state m.record (.complete i w.length)
          = putOnDisk m.record w w.bytes := by
        have htake : w.records.flatten.take w.length = w.bytes :=
          List.take_of_length_le (Nat.le_of_eq w.length_bytes)
        simp only [observe, hw, hrecords, htake]
      rw [hdisk]
      intro w' hw'
      rcases List.mem_append.mp hw' with hw' | hw'
      · exact (hbefore w' hw').put (h.filed.disjoint hw' hmem)
      · rw [List.mem_singleton.mp hw', hrecords]
        apply onDisk_put_self

theorem Inv.step (h : Inv n files m) (horderly : Orderly n m e) (hstep : step m e = some m') :
  Inv n files m'
  := by
  obtain ⟨hadmits, hintact⟩ := horderly
  obtain ⟨hsteps, hrecord⟩ := step_cases hstep
  constructor
  case recorded => exact h.recorded.step hsteps
  case shutdown => exact h.shutdown.step h.recorded.own hadmits hsteps
  case filed => exact h.filed.step h.recorded.own h.shutdown hintact hsteps
  case traced => exact h.traced.step h.recorded.own h.filed hsteps
  case onDisk => exact h.onDisk_step hintact hsteps hrecord

theorem inv_start (n : ℕ) (files : ℕ → ℕ) :
  Inv n files (start files)
  := by
  constructor
  case recorded => exact Logger.recorded_start files
  case shutdown => exact Logger.shutdown_start n files
  case filed => exact Logger.filed_start files
  case traced => exact Logger.traced_start files
  case onDisk => exact nofun

/-- In every run of `n` threads in which files are opened, their sizes found, and every write
completes in full: when the backend clears a buffer, the bytes it holds are on disk at the
offset of the write that was prepared for it; what was written stays on disk; and up to the end
of all writes to a file every position behind what the file held has a byte, unless it belongs
to a write that is not completed. -/
theorem cleared_when_on_disk (hreach : Reaches step (Orderly n) (start files) m) :
  (∀ b reaped, m.state.task = .clear b reaped → ∃ w, m.state.assigned b = some w
      ∧ w.records = (m.state.buf b).records ∧ OnDisk m.record w)
    ∧ (∀ w ∈ m.state.written, OnDisk m.record w)
    ∧ ∀ d p, files d ≤ p → p < m.state.fileEnd (files d) d → m.record d p ≠ none
      ∨ ∃ w, w ∈ m.state.submitted ++ m.state.sq ∧ w.file = d
        ∧ w.offset ≤ p ∧ p < w.offset + w.length
  := by
  have hinv : Inv n files m :=
    hreach.invariant (inv_start n files) (fun _ _ _ hinv hok hstep => hinv.step hok hstep)
  refine ⟨?_, hinv.onDisk, ?_⟩
  · intro b reaped htask
    obtain ⟨w, hw, hassigned, hrecords⟩ := hinv.traced.clearing b reaped htask
    exact ⟨w, hassigned, hrecords.symm, hinv.onDisk w hw⟩
  · intro d p hstart hend
    obtain ⟨w, hw, hrange⟩ := (hinv.filed.layout d).exists_mem_range hstart hend
    obtain ⟨hw, hfile⟩ := List.mem_filter.mp hw
    have hfile : w.file = d := of_decide_eq_true hfile
    rcases List.mem_append.mp (hinv.filed.written.mem_iff.mpr hw) with hw | hw
    · left
      rw [← hfile]
      apply (hinv.onDisk w hw).ne_none hrange.1 hrange.2
    · right
      use w, hw, hfile

/-- A thread logs the record `[65, 66]`, and a second later the record `[67]`, for which it hands
its buffer over. -/
def handOver : List LogEvent :=
  [[.append 0 [65, 66] false, .thread 0, .append 0 [67] true],
    List.replicate 7 (.thread 0)].flatten

/-- Only the first byte of the write of `[65, 66]` is stored; the thread hands over the record
`[67]` too, and its write completes in full. -/
def shortWrite : List LogEvent :=
  [handOver, List.replicate 9 (.backend 7 .ok), [.complete 0 1],
    List.replicate 5 (.backend 7 .ok), [.append 0 [68] true], List.replicate 7 (.thread 0),
    List.replicate 7 (.backend 7 .ok), [.complete 0 1],
    List.replicate 4 (.backend 7 .ok)].flatten

/-- Two threads hand their buffers over, and the writes complete in full, the second one first.  When
the backend is about to clear the second buffer, both are on disk. -/
theorem cleared_when_on_disk_two_buffers :
  ∃ m, Reaches step (Orderly 2) (start fun _ => 10) m
    ∧ m.state.task = .clear (1, false) true
    ∧ m.state.written = [⟨(1, false), 7, 12, [[68]]⟩, ⟨(0, false), 7, 10, [[65, 66]]⟩]
    ∧ (∃ w, m.state.assigned (1, false) = some w ∧ w.records = [[68]] ∧ OnDisk m.record w)
    ∧ OnDisk m.record ⟨(0, false), 7, 10, [[65, 66]]⟩
  := by
  obtain ⟨m, hreach, htask, hrecords, hwritten⟩ : ∃ m, Reaches step (Orderly 2) (start fun _ => 10) m
      ∧ m.state.task = .clear (1, false) true
      ∧ (m.state.buf (1, false)).records = [[68]]
      ∧ m.state.written = [⟨(1, false), 7, 12, [[68]]⟩, ⟨(0, false), 7, 10, [[65, 66]]⟩] := by
    apply Reaches.exists_of_follow [handOver, [.append 1 [68] false, .thread 1, .append 1 [69] true],
      List.replicate 7 (.thread 1), List.replicate 11 (.backend 7 .ok),
      [.complete 1 1, .complete 0 2, .backend 7 .ok]].flatten
    decide +kernel
  obtain ⟨hcleared, hstored, -⟩ := cleared_when_on_disk hreach
  obtain ⟨w, hassigned, heq, hdisk⟩ := hcleared (1, false) true htask
  refine ⟨m, hreach, htask, hwritten, ⟨w, hassigned, ?_, hdisk⟩, hstored _ ?_⟩
  · rw [heq, hrecords]
  · rw [hwritten]
    simp

/-- The backend clears a buffer whose write has failed, although none of its bytes is on disk,
and one that it could not write because no file is open; and when a write is short and the next
one is not, the file has a gap between the two although all writes are completed. -/
theorem cleared_without_write :
  (∃ m, Reaches step (fun m e => Logger.Admits 1 m.state e) (start fun _ => 0) m
      ∧ m.state.task = .clear (0, false) true
      ∧ (m.state.buf (0, false)).records = [[65, 66]]
      ∧ m.state.assigned (0, false) = some ⟨(0, false), 7, 0, [[65, 66]]⟩
      ∧ m.record 7 0 = none ∧ m.record 7 1 = none)
    ∧ (∃ m, Reaches step (fun m e => Logger.Admits 1 m.state e) (start fun _ => 0) m
      ∧ m.state.task = .clear (0, false) false
      ∧ (m.state.buf (0, false)).records = [[65, 66]]
      ∧ m.state.assigned (0, false) = none)
    ∧ ∃ m, Reaches step (fun m e => Logger.Admits 1 m.state e) (start fun _ => 0) m
      ∧ m.state.sq = [] ∧ m.state.submitted = [] ∧ m.state.cq = [] ∧ m.state.files 7 = 3
      ∧ m.record 7 0 = some 65 ∧ m.record 7 1 = none ∧ m.record 7 2 = some 67
  := by
  refine ⟨?_, ?_, ?_⟩
  · apply Reaches.exists_of_follow [handOver, List.replicate 9 (.backend 7 .ok),
      [.complete 0 0, .backend 7 .ok]].flatten
    decide +kernel
  · apply Reaches.exists_of_follow (handOver ++ List.replicate 7 (.backend 7 .failed))
    decide +kernel
  · apply Reaches.exists_of_follow shortWrite
    decide +kernel

end Stored

end Proactor
