import UringProactor.Prelude.Layout
import UringProactor.Util.LogRecords

/-!
# What the log files hold

A buffer that was enqueued is written with the records it held then: nobody touches it before
the completion of its write was seen.  The offsets are given in the order of the tickets.  A
file is opened when no write is in flight, so its size is then the end of all writes to it, and
the writes to one file follow one another without a gap or an overlap.
-/

open scoped List

namespace Proactor

/-- What a write writes, as it was enqueued. -/
def LogWrite.flush (w : LogWrite) : Flush := ⟨w.buf, w.records⟩

/-- The dequeued buffer that `submit_buf` has not prepared a write for. -/
def BackendTask.flushes : BackendTask → List Flush
  | .submitBuf f => [f]
  | _ => []

/-- The backend is about to open a log file. -/
def BackendPc.Opens : BackendPc → Prop
  | .openFirst | .openNext => True
  | _ => False

namespace Logger

variable {s s' : Logger} {n t d : ℕ} {e : LogEvent} {files : ℕ → ℕ} {b : BufId}

/-- The enqueued buffers that are not yet written. -/
def unwritten (s : Logger) : List Flush :=
  s.queue.waiting ++ (s.task.flushes ++ (s.sq ++ s.submitted).map LogWrite.flush)

/-- The writes to the file of the date `d`. -/
def writesTo (s : Logger) (d : ℕ) : List LogWrite := s.writes.filter (fun w => w.file = d)

/-- The end of all writes to the file of the date `d`, which had the given size. -/
def fileEnd (s : Logger) (size d : ℕ) : ℕ := size + ((s.writesTo d).map LogWrite.length).sum

/-! ### The records of a held buffer -/

/-- A step leaves the records of the buffers that are held, except for the one the backend
clears. -/
theorem Own.records_eq (h : Own s) (hstep : Steps s e s') (hb : b ∈ s.held)
    (hclear : ∀ reaped, s.task = .clear b reaped → s'.task = .clear b reaped) :
  (s'.buf b).records = (s.buf b).records
  := by
  obtain ⟨t, i⟩ := b
  have hset : ∀ {t' : ℕ} {th : LogThread}, (t' = t → th.bufs i = (s.threads t').bufs i) →
      (s.setThread t' th).buf (t, i) = s.buf (t, i) := by
    intro t' th hth
    apply of_setThread (P := fun th' => th'.bufs i = (s.threads t).bufs i)
    · rintro rfl
      apply hth rfl
    · exact fun _ => rfl
  cases hstep with
  | @append t' r late hpc =>
      apply congrArg LoggerBuffer.records
      apply hset
      rintro rfl
      rcases LogThread.bufs_append r late with heq | hgone
      · rw [heq]
      · have hflag := (h.threads t').gone hgone (by simp [hpc]) (by simp [hpc]) i
        rw [h.flagged_thread t' hb] at hflag
        cases hflag
  | exit hpc =>
      apply congrArg LoggerBuffer.records
      apply hset
      rw [LogThread.exit]
      split <;> exact fun _ => rfl
  | destroy hpc =>
      apply congrArg LoggerBuffer.records
      apply hset
      exact fun _ => rfl
  | @thread t' th effect hadvance =>
      rw [buf, threads_apply]
      apply congrArg LoggerBuffer.records
      apply hset
      rintro rfl
      exact (h.threads t').bufs_eq (fun _ => h.flagged_thread t') hadvance hb
  | backend hbacks =>
      cases hbacks with
      | openFirst | openNext =>
          rename_i opened _ _
          cases opened <;> rfl
      | @clear b' reaped htask =>
          have hne : (t, i) ≠ b' := by
            rintro rfl
            cases hclear reaped htask
          exact congrArg LoggerBuffer.records (buf_setBuf_of_ne _ hne)
      | @unflag b' reaped htask =>
          rcases eq_or_ne (t, i) b' with rfl | hne
          · change ((s.setBuf (t, i) _).buf (t, i)).records = _
            rw [buf_setBuf_self]
          · exact congrArg LoggerBuffer.records (buf_setBuf_of_ne _ hne)
      | _ => rfl
  | complete len hw => rfl

/-- Where a buffer that is not yet written is. -/
theorem mem_unwritten_iff {f : Flush} :
  f ∈ s.unwritten ↔ f ∈ s.queue.waiting ∨ f ∈ s.task.flushes
    ∨ ∃ w, (w ∈ s.sq ∨ w ∈ s.submitted) ∧ w.flush = f
  := by
  simp [unwritten, or_and_right, exists_or]

/-- A buffer with a write in the ring is held, and the backend is not clearing it. -/
theorem Own.of_mem_ring (h : Own s) {w : LogWrite} (hw : w ∈ s.sq ++ (s.submitted ++ s.cq)) :
  w.buf ∈ s.held ∧ ∀ reaped, s.task ≠ .clear w.buf reaped
  := by
  have hnodup := h.nodup
  rw [held, writing] at hnodup ⊢
  have hmem : w.buf ∈ (s.sq ++ (s.submitted ++ s.cq)).map LogWrite.buf := List.mem_map_of_mem hw
  refine ⟨List.mem_append_right _ (List.mem_append_right _ hmem), ?_⟩
  intro reaped htask
  rw [htask] at hnodup
  exact (List.nodup_cons.mp hnodup.of_append_right).1 hmem

/-- A buffer that is not yet written is held, and the backend is not clearing it. -/
theorem Own.unwritten (h : Own s) {f : Flush} (hf : f ∈ s.unwritten) :
  f.buf ∈ s.held ∧ ∀ reaped, s.task ≠ .clear f.buf reaped
  := by
  have hnodup := h.nodup
  rw [held, writing] at hnodup ⊢
  rcases mem_unwritten_iff.mp hf with hwaiting | hflushes | ⟨w, hw, rfl⟩
  · have hmem : f.buf ∈ s.queued := List.mem_map_of_mem hwaiting
    refine ⟨List.mem_append_left _ hmem, ?_⟩
    intro reaped htask
    rw [htask] at hnodup
    exact List.disjoint_of_nodup_append hnodup hmem List.mem_cons_self
  · revert hflushes
    cases s.task with
    | submitBuf f' =>
        intro hflushes
        rw [List.mem_singleton.mp hflushes]
        exact ⟨List.mem_append_right _ List.mem_cons_self, by simp⟩
    | _ => simp [BackendTask.flushes]
  · apply h.of_mem_ring
    rcases hw with hw | hw <;> simp [hw]

/-- A buffer that is not yet written after a step was so before, or the step enqueued it or
prepared its write, with the records it holds. -/
theorem Steps.unwritten (h : Steps s e s') (hown : Own s) {f : Flush} (hf : f ∈ s'.unwritten) :
  f ∈ s.unwritten ∨ (s'.buf f.buf).records = f.records
  := by
  rw [mem_unwritten_iff] at hf ⊢
  cases h with
  | append | exit | destroy => exact .inl hf
  | @thread t _ _ hadvance =>
      cases hadvance with
      | reserve hpc hroom =>
          rcases hf with hwaiting | hrest
          · change f ∈ (s.queue.reserve _).waiting at hwaiting
            rw [hown.tickets.waiting_reserve, List.mem_append, List.mem_singleton] at hwaiting
            rcases hwaiting with hwaiting | rfl
            · exact .inl (.inl hwaiting)
            · right
              apply congrArg LoggerBuffer.records
              change (s.setThread t _).buf _ = s.buf (t, (s.threads t).writeIdx)
              apply buf_setThread
              rfl
          · exact .inl (.inr hrest)
      | _ => exact .inl hf
  | backend hbacks =>
      cases hbacks with
      | openFirst | openNext =>
          rename_i opened _ _
          left
          cases opened <;> exact hf
      | dequeue htask hpc hfront =>
          left
          rw [TicketQueue.waiting_of_front hfront]
          rcases hf with hwaiting | hflushes | hwrites
          · exact .inl (List.mem_cons_of_mem _ hwaiting)
          · rw [List.mem_singleton.mp hflushes]
            exact .inl List.mem_cons_self
          · exact .inr (.inr hwrites)
      | submit | finalSubmit | settle =>
          left
          rcases hf with hwaiting | hflushes | ⟨w, hw, rfl⟩
          · exact .inl hwaiting
          · exact .inr (.inl hflushes)
          · refine .inr (.inr ⟨w, ?_, rfl⟩)
            rcases hw with hw | hw
            · cases hw
            · exact (List.mem_append.mp hw).symm
      | prepare htask hfd =>
          rcases hf with hwaiting | hflushes | ⟨w, hw, rfl⟩
          · exact .inl (.inl hwaiting)
          · cases hflushes
          · rcases hw with hw | hw
            · rcases List.mem_append.mp hw with hw | hw
              · exact .inl (.inr (.inr ⟨w, .inl hw, rfl⟩))
              · right
                rw [List.mem_singleton.mp hw]
                rfl
            · exact .inl (.inr (.inr ⟨w, .inr hw, rfl⟩))
      | reap | drop | clear | unflag =>
          left
          rcases hf with hwaiting | hflushes | hwrites
          · exact .inl hwaiting
          · cases hflushes
          · exact .inr (.inr hwrites)
      | _ => exact .inl hf
  | complete len hw =>
      left
      rcases hf with hwaiting | hflushes | ⟨w, hw, rfl⟩
      · exact .inl hwaiting
      · exact .inr (.inl hflushes)
      · exact .inr (.inr ⟨w, hw.imp_right List.mem_of_mem_eraseIdx, rfl⟩)

/-! ### The invariant -/

/-- What the log files rest on, where they had the given sizes. -/
structure Filed (files : ℕ → ℕ) (s : Logger) : Prop where
  submitting : ∀ f, s.task = .submitBuf f → s.pc = .drain ∨ s.pc = .finalDrain
  /-- No write is in flight when a file is opened. -/
  settled : s.pc = .start ∨ s.pc.Opens → s.task = .none ∧ s.inFlight = 0
  opened : s.pc ≠ .start → s.pc ≠ .openFirst → s.pc ≠ .finished → s.fd ≠ none
  contents : ∀ f ∈ s.unwritten, (s.buf f.buf).records = f.records
  taken : s.writes.map LogWrite.flush ++ s.task.flushes = s.queue.taken.take s.queue.consumed
  written : s.written ++ (s.submitted ++ s.sq) ~ s.writes
  layout : ∀ d, Contiguous LogWrite.offset LogWrite.length (files d) (s.writesTo d)
  offset : ∀ d, s.fd = some d → s.offset = s.fileEnd (files d) d
  ends : ∀ w ∈ s.written, w.length = 0 ∨ w.offset + w.length ≤ s.files w.file
  size_ge : ∀ d, files d ≤ s.files d
  size_le : ∀ d, s.files d ≤ s.fileEnd (files d) d

/-- The condition on the events: files are opened and their sizes found, and every write
completes in full. -/
def Intact (s : Logger) : LogEvent → Prop
  | .backend _ opened => opened = .ok
  | .complete i len => ∀ w ∈ s.submitted[i]?, len = w.length
  | _ => True

instance (s : Logger) : ∀ e, Decidable (Intact s e)
  | .backend _ opened => inferInstanceAs (Decidable (opened = .ok))
  | .complete i _ => inferInstanceAs (Decidable (∀ w ∈ s.submitted[i]?, _))
  | .append _ _ _ | .exit _ | .destroy _ | .thread _ => inferInstanceAs (Decidable True)

/-! ### Steps -/

/-- Every step keeps the records of the buffers that are not yet written. -/
theorem Filed.contents_step (h : Filed files s) (hown : Own s) (hstep : Steps s e s') :
  ∀ f ∈ s'.unwritten, (s'.buf f.buf).records = f.records
  := by
  intro f hf
  rcases hstep.unwritten hown hf with hf | heq
  · obtain ⟨hmem, hclear⟩ := hown.unwritten hf
    rw [hown.records_eq hstep hmem (fun reaped htask => absurd htask (hclear reaped))]
    apply h.contents f hf
  · exact heq

/-- When no write is in flight, the size of a file is the end of all writes to it. -/
theorem Filed.size_eq (h : Filed files s) (hsq : s.sq = []) (hsubmitted : s.submitted = [])
    (d : ℕ) :
  s.files d = s.fileEnd (files d) d
  := by
  apply Nat.le_antisymm (h.size_le d)
  apply (h.layout d).end_le_of_forall (h.size_ge d)
  intro w hw
  obtain ⟨hw, hfile⟩ := List.mem_filter.mp hw
  have hwritten := h.written
  rw [hsq, hsubmitted, List.append_nil, List.append_nil] at hwritten
  rw [← of_decide_eq_true hfile]
  apply h.ends w (hwritten.mem_iff.mpr hw)

/-- When no write is in flight, none is prepared or submitted. -/
theorem Shutdown.ring_eq_nil (h : Shutdown n s) (hinFlight : s.inFlight = 0) :
  s.sq = [] ∧ s.submitted = [] ∧ s.cq = []
  := by
  have hcount := h.inFlight
  rw [hinFlight, unsettled] at hcount
  refine ⟨?_, ?_, ?_⟩ <;> exact List.eq_nil_of_length_eq_zero (by omega)

/-- A file is open when the backend is in `submit_buf`. -/
theorem Filed.fd_ne_none {f : Flush} (h : Filed files s) (htask : s.task = .submitBuf f) :
  s.fd ≠ none
  := by
  have hpc := h.submitting f htask
  apply h.opened <;>
  · rcases hpc with hpc | hpc <;> simp [hpc]

/-- A write that is not completed has the records of its buffer. -/
theorem Filed.records_of_submitted {w : LogWrite} (h : Filed files s) (hw : w ∈ s.submitted) :
  (s.buf w.buf).records = w.records
  := h.contents w.flush (mem_unwritten_iff.mpr (.inr (.inr ⟨w, .inr hw, rfl⟩)))

/-- A call, or a step of a thread. -/
theorem Filed.thread {effect : LogEffect} {th : LogThread} (h : Filed files s) (hown : Own s)
    (hshutdown : Shutdown n s)
    (hadvance : (s.threads t).Advances t s.queue (s.pc = .finished) th effect) :
  Filed files ((s.setThread t th).apply t effect)
  := by
  have hcontents := h.contents_step hown (.thread hadvance)
  cases hadvance with
  | reserve hpc hroom =>
      refine { h with contents := hcontents, taken := ?_ }
      change _ = (s.queue.taken ++ [_]).take s.queue.consumed
      rw [List.take_append_of_le_length hown.tickets.consumed_le]
      apply h.taken
  | close hpc =>
      have hfinished : s.pc = .finished := by
        apply hshutdown.joined t
        rw [hpc]
        trivial
      exact { h with
        contents := hcontents
        opened := fun _ _ hne => absurd hfinished hne
        offset := nofun }
  | _ => exact { h with contents := hcontents }

/-- The backend goes on, with nothing to submit. -/
theorem Filed.goto {pc : BackendPc} (h : Filed files s) (htask : s.task = .none)
    (hpc : s.pc ≠ .start ∧ s.pc ≠ .openFirst ∧ s.pc ≠ .finished)
    (hsettled : pc = .start ∨ pc.Opens → s.inFlight = 0) :
  Filed files { s with pc := pc }
  := by
  refine { h with submitting := ?_, settled := ?_, opened := ?_ }
  · intro f hf
    rw [show s.task = _ from hf] at htask
    cases htask
  · exact fun hpc' => ⟨htask, hsettled hpc'⟩
  · intro _ _ _
    apply h.opened hpc.1 hpc.2.1 hpc.2.2

/-- The backend submits the prepared writes. -/
theorem Filed.submitRing (h : Filed files s) :
  Filed files s.submitRing
  := by
  refine { h with contents := ?_, written := ?_ }
  · intro f hf
    apply h.contents f
    rw [mem_unwritten_iff] at hf ⊢
    rcases hf with hwaiting | hflushes | ⟨w, hw, rfl⟩
    · exact .inl hwaiting
    · exact .inr (.inl hflushes)
    · refine .inr (.inr ⟨w, ?_, rfl⟩)
      rcases hw with hw | hw
      · cases hw
      · exact (List.mem_append.mp hw).symm
  · change s.written ++ (s.submitted ++ s.sq ++ []) ~ s.writes
    rw [List.append_nil]
    apply h.written

/-- The backend opens a file. -/
theorem Filed.switchLogFileDate {pc : BackendPc} (h : Filed files s) (hshutdown : Shutdown n s)
    (hpc : s.pc.Opens) (hpc' : pc ≠ .start ∧ ¬ pc.Opens) :
  Filed files { s.switchLogFileDate .ok with pc := pc }
  := by
  obtain ⟨htask, hinFlight⟩ := h.settled (.inr hpc)
  obtain ⟨hsq, hsubmitted, -⟩ := hshutdown.ring_eq_nil hinFlight
  refine { h with submitting := ?_, settled := ?_, opened := ?_, offset := ?_ }
  · intro f hf
    rw [show s.task = _ from hf] at htask
    cases htask
  · intro hpc
    exact absurd hpc (not_or.mpr hpc')
  · exact nofun
  · intro d hd
    rw [← Option.some.inj hd]
    apply h.size_eq hsq hsubmitted

/-- The writes to a file, when one more is prepared. -/
theorem writesTo_concat (w : LogWrite) (hwrites : s'.writes = s.writes ++ [w]) (d : ℕ) :
  s'.writesTo d = s.writesTo d ++ if w.file = d then [w] else []
  := by
  rw [writesTo, hwrites, List.filter_append]
  apply congrArg
  by_cases hd : w.file = d <;> simp [hd]

theorem fileEnd_concat (w : LogWrite) (hwrites : s'.writes = s.writes ++ [w]) (size d : ℕ) :
  s'.fileEnd size d = s.fileEnd size d + if w.file = d then w.length else 0
  := by
  rw [fileEnd, fileEnd, writesTo_concat w hwrites, List.map_append, List.sum_append,
    ← Nat.add_assoc]
  apply congrArg
  split <;> simp

/-- The backend prepares a write. -/
theorem Filed.prepare {f : Flush} {file : ℕ} (h : Filed files s) (hown : Own s)
    (htask : s.task = .submitBuf f) (hfd : s.fd = some file) :
  Filed files { s with
    task := .none
    sq := s.sq ++ [⟨f.buf, file, s.offset, (s.buf f.buf).records⟩]
    offset := s.offset + (s.buf f.buf).size
    inFlight := s.inFlight + 1
    writes := s.writes ++ [⟨f.buf, file, s.offset, (s.buf f.buf).records⟩] }
  := by
  have hsteps : Steps s (.backend 0 .ok) _ := .backend (.prepare htask hfd)
  have hcontents := h.contents_step hown hsteps
  set w : LogWrite := ⟨f.buf, file, s.offset, (s.buf f.buf).records⟩ with hw
  have hflush : w.flush = f := by
    have hf : f ∈ s.unwritten := by
      rw [mem_unwritten_iff, htask]
      exact .inr (.inl List.mem_cons_self)
    rw [LogWrite.flush, hw, h.contents f hf]
  have hoffset := h.offset file hfd
  have hpc := h.submitting f htask
  constructor
  case submitting => exact nofun
  case settled =>
    intro hpc'
    change s.pc = _ ∨ s.pc.Opens at hpc'
    rcases hpc with hpc | hpc <;> simp [hpc, BackendPc.Opens] at hpc'
  case opened => exact h.opened
  case contents => exact hcontents
  case taken =>
    rw [← h.taken, htask, List.map_append, List.map_singleton, hflush]
    exact List.append_nil _
  case written =>
    change s.written ++ (s.submitted ++ (s.sq ++ [w])) ~ s.writes ++ [w]
    rw [← List.append_assoc s.submitted, ← List.append_assoc]
    exact h.written.append_right _
  case layout =>
    intro d
    rw [writesTo_concat w rfl]
    split
    case isTrue hd =>
      rw [Contiguous.concat_iff]
      subst hd
      exact ⟨h.layout _, hoffset⟩
    case isFalse =>
      rw [List.append_nil]
      apply h.layout d
  case offset =>
    intro d hd
    obtain rfl : file = d := Option.some.inj (hfd.symm.trans hd)
    rw [fileEnd_concat w rfl, if_pos rfl, ← hoffset]
    rfl
  case ends => exact h.ends
  case size_ge => exact h.size_ge
  case size_le =>
    intro d
    rw [fileEnd_concat w rfl]
    apply Nat.le_trans (h.size_le d)
    apply Nat.le_add_right

/-- Every step of the backend that finds the files in order keeps the invariant. -/
theorem Filed.backs {date : ℕ} (h : Filed files s) (hown : Own s) (hshutdown : Shutdown n s)
    (hstep : Backs s date .ok s') :
  Filed files s'
  := by
  have hcontents := h.contents_step hown (.backend hstep)
  have hnone : s.task = .none → ∀ f, s.task ≠ .submitBuf f := by
    intro htask f
    simp [htask]
  cases hstep with
  | start htask hpc =>
      refine { h with submitting := ?_, settled := ?_, opened := ?_ }
      · exact fun f hf => absurd hf (hnone htask f)
      · exact fun _ => h.settled (.inl hpc)
      · exact fun _ hne => absurd rfl hne
  | openFirst htask hpc =>
      apply h.switchLogFileDate hshutdown
      · rw [hpc]
        trivial
      · exact ⟨by simp, id⟩
  | openNext htask hpc =>
      apply h.switchLogFileDate hshutdown
      · rw [hpc]
        trivial
      · exact ⟨by simp, id⟩
  | top htask hpc | check htask hpc =>
      apply h.goto htask (by simp [hpc])
      cases s.stop <;> simp [BackendPc.Opens]
  | newDate htask hpc _ | acquire htask hpc _ =>
      exact { h.goto htask (by simp [hpc]) (by simp [BackendPc.Opens]) with }
  | dequeue htask hpc hfront =>
      refine { h with submitting := fun _ _ => hpc, settled := ?_, contents := hcontents, taken := ?_ }
      · intro hpc'
        change s.pc = _ ∨ s.pc.Opens at hpc'
        rcases hpc with hpc | hpc <;> simp [hpc, BackendPc.Opens] at hpc'
      · have htaken := h.taken
        rw [htask, show BackendTask.none.flushes = [] from rfl, List.append_nil] at htaken
        change _ ++ [_] = s.queue.taken.take (s.queue.consumed + 1)
        rw [List.take_add_one, (TicketQueue.front_eq_some hfront).2, ← htaken]
        rfl
  | submit htask hpc | finalSubmit htask hpc | settle htask hpc _ =>
      apply h.submitRing.goto htask
      · simp [Logger.submitRing, hpc]
      · simp [BackendPc.Opens]
  | reap htask hpc hcq =>
      refine { h with submitting := by simp, settled := ?_, contents := hcontents, taken := ?_ }
      · intro hpc'
        change s.pc = _ ∨ s.pc.Opens at hpc'
        rcases hpc with hpc | ⟨final, hpc⟩ <;> simp [hpc, BackendPc.Opens] at hpc'
      · rw [← h.taken, htask]
        rfl
  | @settled final htask hpc hinFlight =>
      apply h.goto htask (by simp [hpc])
      exact fun _ => hinFlight
  | prepare htask hfd => exact h.prepare hown htask hfd
  | drop htask hfd => exact absurd hfd (h.fd_ne_none htask)
  | clear htask | unflag htask =>
      refine { h with submitting := by simp, settled := ?_, contents := hcontents, taken := ?_ }
      · intro hpc'
        rw [(h.settled hpc').1] at htask
        cases htask
      · rw [show (Logger.setBuf s _ _).queue = s.queue from rfl, ← h.taken, htask]
        rfl
  | _ htask hpc =>
      exact h.goto htask (by simp [hpc]) (by simp [BackendPc.Opens])

/-- The kernel completes a write in full. -/
theorem Filed.complete {i : ℕ} {w : LogWrite} (h : Filed files s) (hown : Own s)
    (hw : s.submitted[i]? = some w) :
  Filed files { s with
    submitted := s.submitted.eraseIdx i
    cq := s.cq ++ [w]
    files := if w.length = 0 then s.files else
      Function.update s.files w.file (max (s.files w.file) (w.offset + w.length))
    written := s.written ++ [{ w with records := (s.buf w.buf).records }] }
  := by
  have hcontents := h.contents_step hown (.complete w.length hw)
  have hmem : w ∈ s.submitted := List.mem_of_getElem? hw
  have hrecords : ({ w with records := (s.buf w.buf).records } : LogWrite) = w := by
    rw [h.records_of_submitted hmem]
  rw [hrecords] at hcontents ⊢
  set sizes : ℕ → ℕ := if w.length = 0 then s.files else
    Function.update s.files w.file (max (s.files w.file) (w.offset + w.length)) with hsizes
  have hgrow : ∀ d, sizes d = s.files d
      ∨ d = w.file ∧ sizes d = max (s.files d) (w.offset + w.length) := by
    intro d
    rw [hsizes]
    split
    · exact .inl rfl
    · rcases eq_or_ne d w.file with rfl | hne
      · exact .inr ⟨rfl, Function.update_self ..⟩
      · exact .inl (Function.update_of_ne hne ..)
  have hmono : ∀ d, s.files d ≤ sizes d := by
    intro d
    rcases hgrow d with heq | ⟨-, heq⟩
    · exact Nat.le_of_eq heq.symm
    · rw [heq]
      apply Nat.le_max_left
  have hend : w.length = 0 ∨ w.offset + w.length ≤ sizes w.file := by
    rw [hsizes]
    split
    case isTrue hzero => exact .inl hzero
    case isFalse =>
      right
      rw [Function.update_self]
      apply Nat.le_max_right
  refine { h with contents := hcontents, written := ?_, ends := ?_, size_ge := ?_, size_le := ?_ }
  · change s.written ++ [w] ++ (s.submitted.eraseIdx i ++ s.sq) ~ s.writes
    obtain ⟨hi, rfl⟩ := List.getElem?_eq_some_iff.mp hw
    rw [List.append_assoc]
    apply List.Perm.trans _ h.written
    apply List.Perm.append_left
    exact (List.getElem_cons_eraseIdx_perm hi).append_right _
  · intro w' hw'
    rcases List.mem_append.mp hw' with hw' | hw'
    · exact (h.ends w' hw').imp_right (fun hle => Nat.le_trans hle (hmono _))
    · rw [List.mem_singleton.mp hw']
      exact hend
  · intro d
    apply Nat.le_trans (h.size_ge d) (hmono d)
  · intro d
    change sizes d ≤ s.fileEnd (files d) d
    rcases hgrow d with heq | ⟨rfl, heq⟩
    · rw [heq]
      apply h.size_le d
    · rw [heq]
      apply Nat.max_le.mpr ⟨h.size_le _, (h.layout _).end_le _⟩
      apply List.mem_filter.mpr ⟨h.written.mem_iff.mp _, decide_eq_true rfl⟩
      simp [hmem]

/-- Every step that is admitted and finds the files in order keeps the invariant. -/
theorem Filed.step (h : Filed files s) (hown : Own s) (hshutdown : Shutdown n s)
    (hintact : Intact s e) (hstep : Steps s e s') :
  Filed files s'
  := by
  have hcontents := h.contents_step hown hstep
  cases hstep with
  | append | exit | destroy => exact { h with contents := hcontents }
  | thread hadvance => exact h.thread hown hshutdown hadvance
  | backend hbacks =>
      obtain rfl := hintact
      exact h.backs hown hshutdown hbacks
  | complete len hw =>
      obtain rfl := hintact _ hw
      exact h.complete hown hw

theorem filed_start (files : ℕ → ℕ) :
  Filed files (start files)
  := by
  constructor
  case submitting => exact nofun
  case settled => exact fun _ => ⟨rfl, rfl⟩
  case opened => exact fun hne => absurd rfl hne
  case contents => exact nofun
  case taken => rfl
  case written => exact .nil
  case layout => exact fun _ => trivial
  case offset => exact nofun
  case ends => exact nofun
  case size_ge => exact fun _ => Nat.le_refl _
  case size_le => exact fun _ => Nat.le_refl _

/-- The records of a thread that were prepared for writing were enqueued in this order. -/
theorem Filed.written_sublist (h : Filed files s) (t : ℕ) :
  ((s.writes.filter (fun w => w.buf.1 = t)).flatMap LogWrite.records) <+ (s.flushed t)
  := by
  have htaken : s.queue.taken = s.writes.map LogWrite.flush
      ++ (s.task.flushes ++ s.queue.taken.drop s.queue.consumed) := by
    rw [← List.append_assoc, h.taken, List.take_append_drop]
  rw [flushed, htaken, List.filter_append, List.flatMap_append, List.filter_map,
    List.flatMap_map]
  apply List.sublist_append_left

/-- When the backend has finished, every enqueued buffer was written once. -/
theorem Filed.written_all (h : Filed files s) (hshutdown : Shutdown n s)
    (hpc : s.pc = .finished) :
  s.written.map LogWrite.flush ~ s.queue.taken
  := by
  obtain ⟨htask, hinFlight⟩ := hshutdown.finished hpc
  obtain ⟨hsq, hsubmitted, -⟩ := hshutdown.ring_eq_nil hinFlight
  have hdrained : s.pc.Drained := by
    rw [hpc]
    trivial
  have htaken := h.taken
  rw [htask, show BackendTask.none.flushes = [] from rfl, List.append_nil,
    hshutdown.drained hdrained, List.take_length] at htaken
  have hwritten := h.written
  rw [hsq, hsubmitted, List.append_nil, List.append_nil] at hwritten
  rw [← htaken]
  exact hwritten.map _

/-- In every run of `n` threads in which files are opened, their sizes found, and every write
completes in full: the writes to one file follow one another from the size the file had, which
makes them disjoint; the records of a thread are written in the order it logged them; what was
written is what was enqueued; a file is opened when no write is prepared or submitted, and its
size is then the end of the writes to it; and when `~Logger` has finished, every enqueued
buffer was written once. -/
theorem files_in_order
    (hreach : Reaches step (fun s e => Admits n s e ∧ Intact s e) (start files) s) :
  (∀ d, Contiguous LogWrite.offset LogWrite.length (files d) (s.writesTo d)
      ∧ (s.writesTo d).Pairwise (fun w w' => w.offset + w.length ≤ w'.offset))
    ∧ (∀ t, ((s.writes.filter (fun w => w.buf.1 = t)).flatMap LogWrite.records) <+ (s.logged t))
    ∧ s.written ++ (s.submitted ++ s.sq) ~ s.writes
    ∧ (s.pc.Opens → s.sq = [] ∧ s.submitted = []
      ∧ s.files s.today = s.fileEnd (files s.today) s.today)
    ∧ (∀ t, (s.threads t).pc = .destroyed → s.written.map LogWrite.flush ~ s.queue.taken)
  := by
  have hinv : Recorded s ∧ Shutdown n s ∧ Filed files s := by
    apply hreach.invariant (I := fun s => Recorded s ∧ Shutdown n s ∧ Filed files s)
    · exact ⟨recorded_start files, shutdown_start n files, filed_start files⟩
    · rintro s s' e ⟨hrecorded, hshutdown, hfiled⟩ ⟨hadmits, hintact⟩ hstep
      have hsteps := step_cases hstep
      exact ⟨hrecorded.step hsteps, hshutdown.step hrecorded.own hadmits hsteps,
        hfiled.step hrecorded.own hshutdown hintact hsteps⟩
  obtain ⟨hrecorded, hshutdown, hfiled⟩ := hinv
  refine ⟨fun d => ⟨hfiled.layout d, (hfiled.layout d).pairwise⟩, ?_, hfiled.written, ?_, ?_⟩
  · intro t
    apply List.Sublist.trans (hfiled.written_sublist t)
    apply List.Sublist.trans (List.sublist_append_left _ _) (hrecorded.sublist t)
  · intro hpc
    obtain ⟨hsq, hsubmitted, -⟩ := hshutdown.ring_eq_nil (hfiled.settled (.inr hpc)).2
    exact ⟨hsq, hsubmitted, hfiled.size_eq hsq hsubmitted _⟩
  · intro t hpc
    have hfinished : s.pc = .finished := by
      apply hshutdown.joined t
      rw [hpc]
      trivial
    apply hfiled.written_all hshutdown hfinished

/-- Two threads log a record each.  One exits, and the other then runs `~Logger`: the two records are
written behind what the file held, one behind the other. -/
theorem files_in_order_two_threads :
  ∃ s, Reaches step (fun s e => Admits 2 s e ∧ Intact s e) (start fun _ => 10) s
    ∧ (s.threads 0).pc = .destroyed
    ∧ s.written = [⟨(1, false), 7, 10, [[67]]⟩, ⟨(0, false), 7, 11, [[65, 66]]⟩]
    ∧ s.written.map LogWrite.flush ~ s.queue.taken
  := by
  obtain ⟨s, hreach, hpc, hwritten⟩ :
      ∃ s, Reaches step (fun s e => Admits 2 s e ∧ Intact s e) (start fun _ => 10) s
        ∧ (s.threads 0).pc = .destroyed
        ∧ s.written = [⟨(1, false), 7, 10, [[67]]⟩, ⟨(0, false), 7, 11, [[65, 66]]⟩] := by
    apply Reaches.exists_of_follow [[.append 0 [65, 66] false, .append 1 [67] false, .thread 0,
      .thread 1, .exit 1], List.replicate 5 (.thread 1), List.replicate 9 (.backend 7 .ok),
      [.complete 0 1], List.replicate 3 (.backend 7 .ok), List.replicate 3 (.thread 1),
      [.destroy 0], List.replicate 7 (.thread 0), List.replicate 7 (.backend 7 .ok),
      [.complete 0 2], List.replicate 6 (.backend 7 .ok), List.replicate 3 (.thread 0)].flatten
    decide +kernel
  use s, hreach, hpc, hwritten
  exact (files_in_order hreach).2.2.2.2 0 hpc

end Logger

end Proactor
