import UringProactor.Util.LogThreads

/-!
# Who owns a log buffer

A buffer is held by the backend from its enqueue to the stores that give it back, and by its
thread otherwise.  `held` lists the buffers that are in `flush_queue_` or being written.  The
invariant `Own` says that no buffer is in the list twice, that the flag `in_flight_` of each is
set, and that every thread touches only buffers that are not in the list.
-/

open scoped List

namespace Proactor

/-- The buffer the backend is dealing with. -/
def BackendTask.bufs : BackendTask → List BufId
  | .none => []
  | .submitBuf f => [f.buf]
  | .clear b _ => [b]
  | .unflag b _ => [b]

namespace Logger

variable {s s' : Logger} {t : ℕ} {th : LogThread}

/-- The buffers in `flush_queue_`. -/
def queued (s : Logger) : List BufId := s.queue.waiting.map Flush.buf

/-- The buffers being written, from their dequeue to the stores that give them back. -/
def writing (s : Logger) : List BufId :=
  s.task.bufs ++ (s.sq ++ (s.submitted ++ s.cq)).map LogWrite.buf

/-- The buffers that are queued or being written. -/
def held (s : Logger) : List BufId := s.queued ++ s.writing

/-- The invariant of the buffers. -/
structure Own (s : Logger) : Prop where
  tickets : s.queue.Sound flushQueueCapacity
  nodup : s.held.Nodup
  flagged : ∀ b ∈ s.held, (s.buf b).inFlight = true
  cleared : ∀ b reaped, s.task = .unflag b reaped → (s.buf b).records = []
  threads : ∀ t, (s.threads t).Ok s.held s.queue t
  /-- A ticket that is not published is that of a thread about to publish it. -/
  unpublished : ∀ k < s.queue.taken.length, k ∉ s.queue.published →
    ∃ t f, (s.threads t).pc = .publish f k

theorem mem_held_of_clear {b : BufId} {reaped : Bool} (htask : s.task = .clear b reaped) :
  b ∈ s.held
  := by
  simp [held, writing, htask, BackendTask.bufs]

theorem mem_held_of_unflag {b : BufId} {reaped : Bool} (htask : s.task = .unflag b reaped) :
  b ∈ s.held
  := by
  simp [held, writing, htask, BackendTask.bufs]

/-- Replacing a thread by one with the same buffers. -/
theorem buf_setThread (hbufs : th.bufs = (s.threads t).bufs) (b : BufId) :
  (s.setThread t th).buf b = s.buf b
  := by
  apply of_setThread (P := fun th' => th'.bufs b.2 = (s.threads b.1).bufs b.2)
  · intro heq
    rw [heq, hbufs]
  · exact fun _ => rfl

/-- A thread that changes no buffer that is held, nor the ticket it is about to publish. -/
theorem Own.setThread (h : Own s) (hok : th.Ok s.held s.queue t)
    (hbufs : ∀ i, (t, i) ∈ s.held → th.bufs i = (s.threads t).bufs i)
    (hpublish : ∀ f k, (s.threads t).pc ≠ .publish f k) :
  Own (s.setThread t th)
  := by
  have hbuf : ∀ b ∈ s.held, (s.setThread t th).buf b = s.buf b := by
    rintro ⟨t', i⟩ hmem
    apply of_setThread (P := fun th' => th'.bufs i = (s.threads t').bufs i)
    · rintro rfl
      apply hbufs i hmem
    · exact fun _ => rfl
  constructor
  case tickets => exact h.tickets
  case nodup => exact h.nodup
  case flagged =>
    intro b hb
    rw [hbuf b hb]
    apply h.flagged b hb
  case cleared =>
    intro b reaped htask
    have htask : s.task = .unflag b reaped := htask
    rw [hbuf b (mem_held_of_unflag htask)]
    apply h.cleared b reaped htask
  case threads =>
    intro t'
    change LogThread.Ok s.held s.queue t' (Function.update s.threads t th t')
    rcases eq_or_ne t' t with rfl | hne
    · rw [Function.update_self]
      apply hok
    · rw [Function.update_of_ne hne]
      apply h.threads t'
  case unpublished =>
    intro k hk hnot
    obtain ⟨t', f, hpc⟩ := h.unpublished k hk hnot
    use t', f
    change (Function.update s.threads t th t').pc = _
    rw [Function.update_of_ne _]
    · apply hpc
    · rintro rfl
      exact hpublish f k hpc

theorem Own.flagged_thread (h : Own s) (t : ℕ) {i : Bool} (hi : (t, i) ∈ s.held) :
  ((s.threads t).bufs i).inFlight = true
  := h.flagged (t, i) hi

/-- A thread enqueues its current buffer. -/
theorem Own.reserve {f : FlushFor} (h : Own s) (hpc : (s.threads t).pc = .enqueue f)
    (hroom : ¬ s.queue.Full flushQueueCapacity) :
  Own ((s.setThread t { s.threads t with pc := .publish f s.queue.taken.length }).apply t
    (.reserve ⟨(t, (s.threads t).writeIdx), (s.threads t).front.records⟩))
  := by
  have hok := (h.threads t).pc
  rw [hpc] at hok
  have hstep : (s.threads t).Advances t s.queue true _ _ := .reserve hpc hroom
  have hadvance := (h.threads t).advance (fun i => h.flagged_thread t) h.tickets hstep
  set fl : Flush := ⟨(t, (s.threads t).writeIdx), (s.threads t).front.records⟩
  set s' := (s.setThread t { s.threads t with pc := .publish f s.queue.taken.length }).apply t
    (.reserve fl)
  have hbuf : ∀ b, s'.buf b = s.buf b := buf_setThread rfl
  have hheld : s'.held ~ fl.buf :: s.held := by
    have hqueued : s'.queued = s.queued ++ [fl.buf] := by
      rw [queued, queued, ← List.map_singleton, ← List.map_append]
      exact congrArg _ (h.tickets.waiting_reserve fl)
    rw [held, hqueued]
    exact (List.perm_append_singleton _ _).append_right _
  have hlen : s'.queue.taken.length = s.queue.taken.length + 1 :=
    TicketQueue.length_taken_reserve fl
  constructor
  case tickets => exact (TicketQueue.Step.reserve fl hroom).sound h.tickets
  case nodup =>
    rw [hheld.nodup_iff, List.nodup_cons]
    exact ⟨hok.1, h.nodup⟩
  case flagged =>
    intro b hb
    rw [hbuf]
    rcases List.mem_cons.mp (hheld.mem_iff.mp hb) with rfl | hb
    · exact hok.2.1
    · apply h.flagged b hb
  case cleared =>
    intro b reaped htask
    rw [hbuf]
    apply h.cleared b reaped htask
  case threads =>
    intro t'
    change LogThread.Ok s'.held (s.queue.reserve fl) t' (Function.update s.threads t _ t')
    rcases eq_or_ne t' t with rfl | hne
    · rw [Function.update_self]
      apply hadvance
    · rw [Function.update_of_ne hne]
      apply (h.threads t').mono
      · intro i hi
        rcases List.mem_cons.mp (hheld.mem_iff.mp hi) with heq | hi
        · cases heq
          contradiction
        · apply hi
      · intro ticket f' hpc'
        refine ⟨?_, id⟩
        have hticket := (h.threads t').pc
        rw [hpc'] at hticket
        obtain ⟨a, ha, -⟩ := Option.map_eq_some_iff.mp hticket.1
        apply List.getElem?_append_left (List.getElem?_eq_some_iff.mp ha).1
  case unpublished =>
    intro k hk hnot
    rcases Nat.lt_succ_iff_lt_or_eq.mp (hlen ▸ hk) with hk | rfl
    · obtain ⟨t', f', hpc'⟩ := h.unpublished k hk hnot
      use t', f'
      change (Function.update s.threads t _ t').pc = _
      rw [Function.update_of_ne _]
      · apply hpc'
      · rintro rfl
        rw [hpc] at hpc'
        cases hpc'
    · use t, f
      change (Function.update s.threads t _ t).pc = _
      rw [Function.update_self]

/-- A thread publishes its ticket. -/
theorem Own.publish {f : FlushFor} {ticket : ℕ} (h : Own s)
    (hpc : (s.threads t).pc = .publish f ticket) :
  Own ((s.setThread t { s.threads t with pc := .release f }).apply t (.publish ticket))
  := by
  have hok := (h.threads t).pc
  rw [hpc] at hok
  have hstep : (s.threads t).Advances t s.queue true _ _ := .publish hpc
  have hadvance := (h.threads t).advance (fun i => h.flagged_thread t) h.tickets hstep
  set s' := (s.setThread t { s.threads t with pc := .release f }).apply t (.publish ticket)
  have hlt : ticket < s.queue.taken.length := by
    obtain ⟨a, ha, -⟩ := Option.map_eq_some_iff.mp hok.1
    exact (List.getElem?_eq_some_iff.mp ha).1
  have hbuf : ∀ b, s'.buf b = s.buf b := buf_setThread rfl
  constructor
  case tickets => exact (TicketQueue.Step.publish hlt hok.2.1).sound h.tickets
  case nodup => exact h.nodup
  case flagged =>
    intro b hb
    rw [hbuf]
    apply h.flagged b hb
  case cleared =>
    intro b reaped htask
    rw [hbuf]
    apply h.cleared b reaped htask
  case threads =>
    intro t'
    change LogThread.Ok s.held (s.queue.publish ticket) t' (Function.update s.threads t _ t')
    rcases eq_or_ne t' t with rfl | hne
    · rw [Function.update_self]
      apply hadvance
    · rw [Function.update_of_ne hne]
      apply (h.threads t').mono (fun i => id)
      intro ticket' f' hpc'
      refine ⟨rfl, ?_⟩
      have hticket := (h.threads t').pc
      rw [hpc'] at hticket
      intro hnot hmem
      rcases List.mem_cons.mp hmem with rfl | hmem
      · -- Two threads would hold the same ticket.
        have heq := Option.some.inj (hok.1.symm.trans hticket.1)
        rw [Prod.mk.injEq] at heq
        exact hne heq.1.symm
      · exact hnot hmem
  case unpublished =>
    intro k hk hnot
    obtain ⟨hne, hnot⟩ := not_or.mp (mt List.mem_cons.mpr hnot)
    obtain ⟨t', f', hpc'⟩ := h.unpublished k hk hnot
    use t', f'
    change (Function.update s.threads t _ t').pc = _
    rw [Function.update_of_ne _]
    · apply hpc'
    · rintro rfl
      rw [hpc] at hpc'
      cases hpc'
      exact hne rfl

/-- Every step of a thread keeps the invariant. -/
theorem Own.thread {finished : Bool} {effect : LogEffect} (h : Own s)
    (hstep : (s.threads t).Advances t s.queue finished th effect) :
  Own ((s.setThread t th).apply t effect)
  := by
  have hflagged := fun i => h.flagged_thread t (i := i)
  have hadvance := (h.threads t).advance hflagged h.tickets hstep
  have hbufs := fun i hi => (h.threads t).bufs_eq hflagged hstep (i := i) hi
  have hset : th.Ok s.held s.queue t → (∀ f k, (s.threads t).pc ≠ .publish f k) →
      Own (s.setThread t th) := fun hok => h.setThread hok hbufs
  cases hstep with
  | reserve hpc hroom => exact h.reserve hpc hroom
  | publish hpc => exact h.publish hpc
  | release hpc => exact { hset hadvance (by simp [hpc]) with }
  | copy hpc => exact { hset hadvance (by simp [hpc]) with }
  | requestStop hpc => exact { hset hadvance (by simp [hpc]) with }
  | releaseStop hpc => exact { hset hadvance (by simp [hpc]) with }
  | close hpc => exact { hset hadvance (by simp [hpc]) with }
  | _ => exact hset hadvance (by simp [*])

/-! ### Steps of the backend -/

/-- A step that passes buffers on without touching them. -/
theorem Own.of_perm (h : Own s) (hthreads : s'.threads = s.threads)
    (htaken : s'.queue.taken = s.queue.taken) (hpublished : s'.queue.published = s.queue.published)
    (hsound : s'.queue.Sound flushQueueCapacity) (hperm : s'.held ~ s.held)
    (hcleared : ∀ b reaped, s'.task = .unflag b reaped → (s.buf b).records = []) :
  Own s'
  := by
  have hbuf : ∀ b, s'.buf b = s.buf b := by
    intro b
    rw [buf, hthreads]
    rfl
  constructor
  case tickets => exact hsound
  case nodup => exact hperm.nodup_iff.mpr h.nodup
  case flagged =>
    intro b hb
    rw [hbuf]
    apply h.flagged b (hperm.mem_iff.mp hb)
  case cleared =>
    intro b reaped htask
    rw [hbuf]
    apply hcleared b reaped htask
  case threads =>
    intro t
    rw [hthreads]
    apply (h.threads t).mono (fun i => hperm.mem_iff.mp)
    intro ticket f _
    rw [htaken, hpublished]
    exact ⟨rfl, id⟩
  case unpublished =>
    rw [htaken, hpublished, hthreads]
    apply h.unpublished

section

variable {b : BufId}

theorem buf_setBuf_self (lb : LoggerBuffer) :
  (s.setBuf b lb).buf b = lb
  := by
  simp [setBuf, setThread, buf]

theorem buf_setBuf_of_ne (lb : LoggerBuffer) {b' : BufId} (hne : b' ≠ b) :
  (s.setBuf b lb).buf b' = s.buf b'
  := by
  obtain ⟨t, i⟩ := b
  obtain ⟨t', i'⟩ := b'
  change (Function.update s.threads t _ t').bufs i' = (s.threads t').bufs i'
  rcases eq_or_ne t' t with rfl | ht
  · rw [Function.update_self]
    apply Function.update_of_ne
    rintro rfl
    exact hne rfl
  · rw [Function.update_of_ne ht]

/-- Emptying a buffer that is held, and perhaps taking its flag away. -/
theorem Own.setBuf (h : Own s) (lb : LoggerBuffer) (hmem : b ∈ s.held) (hrecords : lb.records = [])
    (t : ℕ) :
  ∃ bufs, (s.setBuf b lb).threads t = { s.threads t with bufs := bufs }
    ∧ ∀ i, LogThread.Emptied s.held (t, i) ((s.threads t).bufs i) (bufs i)
  := by
  rcases eq_or_ne t b.1 with rfl | hne
  · use Function.update (s.threads b.1).bufs b.2 lb, Function.update_self ..
    intro i
    rcases eq_or_ne i b.2 with rfl | hi
    · right
      rw [Function.update_self]
      exact ⟨hmem, h.flagged b hmem, hrecords⟩
    · left
      apply Function.update_of_ne hi
  · use (s.threads t).bufs, Function.update_of_ne hne ..
    intro i
    left
    rfl

/-- The code of a thread is where it was when a buffer is replaced. -/
theorem pc_setBuf (lb : LoggerBuffer) (t : ℕ) :
  ((s.setBuf b lb).threads t).pc = (s.threads t).pc
  := by
  change (Function.update s.threads b.1 _ t).pc = _
  rcases eq_or_ne t b.1 with rfl | hne
  · rw [Function.update_self]
  · rw [Function.update_of_ne hne]

/-- The backend clears a buffer. -/
theorem Own.clear {reaped : Bool} (h : Own s) (htask : s.task = .clear b reaped) :
  Own { s.setBuf b (s.buf b).clear with task := .unflag b reaped }
  := by
  set s' : Logger := { s.setBuf b (s.buf b).clear with task := .unflag b reaped }
  have hmem := mem_held_of_clear htask
  have hheld : s'.held = s.held := by
    rw [held, held, writing, writing, htask]
    rfl
  have hself : s'.buf b = (s.buf b).clear := buf_setBuf_self _
  constructor
  case tickets => exact h.tickets
  case nodup =>
    rw [hheld]
    apply h.nodup
  case flagged =>
    intro b' hb'
    rw [hheld] at hb'
    rcases eq_or_ne b' b with rfl | hne
    · rw [hself]
      apply h.flagged b' hb'
    · rw [show s'.buf b' = s.buf b' from buf_setBuf_of_ne _ hne]
      apply h.flagged b' hb'
  case cleared =>
    intro b' reaped' htask'
    cases htask'
    rw [hself]
    rfl
  case threads =>
    intro t
    obtain ⟨bufs, heq, hemptied⟩ := h.setBuf (s.buf b).clear hmem rfl t
    rw [hheld, show s'.threads t = _ from heq]
    exact (h.threads t).emptied hemptied (fun _ => id)
  case unpublished =>
    intro k hk hnot
    obtain ⟨t, f, hpc⟩ := h.unpublished k hk hnot
    use t, f
    exact (pc_setBuf _ t).trans hpc

/-- The backend takes the flag of a buffer away, and with it the buffer back to its thread. -/
theorem Own.unflag {reaped : Bool} (h : Own s) (htask : s.task = .unflag b reaped)
    (inFlight : ℕ) :
  Own { s.setBuf b { s.buf b with inFlight := false } with
    task := .none
    inFlight := inFlight }
  := by
  set s' : Logger := { s.setBuf b { s.buf b with inFlight := false } with
    task := .none
    inFlight := inFlight }
  have hheld : s.held ~ b :: s'.held := by
    rw [held, writing, htask]
    exact List.perm_middle
  have hsub : ∀ b', b' ∈ s'.held → b' ∈ s.held := by
    intro b' hb'
    apply hheld.mem_iff.mpr (List.mem_cons_of_mem _ hb')
  obtain ⟨hnot, hnodup⟩ := List.nodup_cons.mp (hheld.nodup_iff.mp h.nodup)
  constructor
  case tickets => exact h.tickets
  case nodup => exact hnodup
  case flagged =>
    intro b' hb'
    have hne : b' ≠ b := by
      rintro rfl
      exact hnot hb'
    rw [show s'.buf b' = s.buf b' from buf_setBuf_of_ne _ hne]
    apply h.flagged b' (hsub b' hb')
  case cleared => exact fun b' reaped' htask' => nomatch htask'
  case threads =>
    intro t
    have hmem := mem_held_of_unflag htask
    obtain ⟨bufs, heq, hemptied⟩ := h.setBuf { s.buf b with inFlight := false } hmem
      (h.cleared b reaped htask) t
    rw [show s'.threads t = _ from heq]
    exact (h.threads t).emptied hemptied (fun i => hsub (t, i))
  case unpublished =>
    intro k hk hk'
    obtain ⟨t, f, hpc⟩ := h.unpublished k hk hk'
    use t, f
    exact (pc_setBuf _ t).trans hpc

end

/-- Every step of the backend keeps the invariant. -/
theorem Own.backs {date : ℕ} {opened : OpenResult} (h : Own s) (hstep : Backs s date opened s') :
  Own s'
  := by
  cases hstep with
  | openFirst htask hpc | openNext htask hpc =>
      cases opened <;> exact h.of_perm rfl rfl rfl h.tickets (.refl _) h.cleared
  | @dequeue f htask hpc hfront =>
      refine h.of_perm rfl rfl rfl ((TicketQueue.Step.consume hfront).sound h.tickets) ?_ nofun
      rw [held, held, queued, queued, writing, writing, htask,
        TicketQueue.waiting_of_front hfront]
      exact List.perm_middle
  | submit htask hpc | finalSubmit htask hpc | settle htask hpc hinFlight =>
      refine h.of_perm rfl rfl rfl h.tickets ?_ h.cleared
      have hsq : [] ++ (s.submitted ++ s.sq ++ s.cq) ~ s.sq ++ (s.submitted ++ s.cq) := by
        rw [List.nil_append, ← List.append_assoc]
        exact List.perm_append_comm.append_right _
      exact (((hsq.map LogWrite.buf).append_left _).append_left _)
  | @reap w cq htask hpc hcq =>
      refine h.of_perm rfl rfl rfl h.tickets ?_ nofun
      rw [held, held, writing, writing, htask, hcq]
      apply List.Perm.append_left
      change w.buf :: (s.sq ++ (s.submitted ++ cq)).map LogWrite.buf ~ _
      rw [← List.map_cons]
      apply List.Perm.map
      rw [← List.append_assoc, ← List.append_assoc]
      exact List.perm_middle.symm
  | prepare htask hfd =>
      refine h.of_perm rfl rfl rfl h.tickets ?_ nofun
      rw [held, held, writing, writing, htask]
      apply List.Perm.append_left
      rw [List.append_assoc]
      apply (List.perm_middle.map LogWrite.buf)
  | drop htask hfd =>
      refine h.of_perm rfl rfl rfl h.tickets ?_ nofun
      rw [held, held, writing, writing, htask]
      exact .refl _
  | clear htask => exact h.clear htask
  | unflag htask => exact h.unflag htask _
  | _ htask => exact h.of_perm rfl rfl rfl h.tickets (.refl _) h.cleared

/-- What the backend does to the buffers of a thread. -/
theorem Own.emptied {date : ℕ} {opened : OpenResult} (h : Own s) (hstep : Backs s date opened s')
    (t : ℕ) :
  ∃ bufs, s'.threads t = { s.threads t with bufs := bufs }
    ∧ ∀ i, LogThread.Emptied s.held (t, i) ((s.threads t).bufs i) (bufs i)
  := by
  have hrefl : ∀ i, LogThread.Emptied s.held (t, i) ((s.threads t).bufs i) ((s.threads t).bufs i) :=
    fun i => .inl rfl
  cases hstep with
  | @clear b reaped htask => exact h.setBuf (s.buf b).clear (mem_held_of_clear htask) rfl t
  | @unflag b reaped htask =>
      exact h.setBuf { s.buf b with inFlight := false } (mem_held_of_unflag htask)
        (h.cleared b reaped htask) t
  | openFirst | openNext => cases opened <;> exact ⟨_, rfl, hrefl⟩
  | _ => exact ⟨_, rfl, hrefl⟩

/-! ### All steps -/

/-- A call leaves the buffers that are held as they are. -/
theorem Own.call (h : Own s) (hpc : (s.threads t).pc = .idle) (hok : th.Ok s.held s.queue t)
    (hbufs : th.bufs = (s.threads t).bufs ∨ (s.threads t).allocated = false) :
  Own (s.setThread t th)
  := by
  refine h.setThread hok ?_ (by simp [hpc])
  intro i hi
  rcases hbufs with heq | hgone
  · rw [heq]
  · have hflag := (h.threads t).gone hgone (by simp [hpc]) (by simp [hpc]) i
    rw [h.flagged_thread t hi] at hflag
    cases hflag

/-- Every step keeps the invariant. -/
theorem Own.step {e : LogEvent} (h : Own s) (hstep : Steps s e s') :
  Own s'
  := by
  cases hstep with
  | append r late hpc =>
      apply h.call hpc ((h.threads _).append hpc r late)
      apply LogThread.bufs_append
  | exit hpc =>
      apply h.call hpc ((h.threads _).exit hpc)
      left
      rw [LogThread.exit]
      split <;> rfl
  | destroy hpc =>
      have hcall := h.call hpc ((h.threads _).destroy hpc) (.inl rfl)
      exact { hcall with }
  | thread hadvance => exact h.thread hadvance
  | backend hbacks => exact h.backs hbacks
  | @complete i w len hw =>
      refine h.of_perm rfl rfl rfl h.tickets ?_ h.cleared
      obtain ⟨hi, rfl⟩ := List.getElem?_eq_some_iff.mp hw
      have hperm : s.submitted.eraseIdx i ++ (s.cq ++ [s.submitted[i]]) ~ s.submitted ++ s.cq := by
        rw [← List.append_assoc]
        apply (List.perm_append_singleton _ _).trans
        exact (List.getElem_cons_eraseIdx_perm hi).append_right _
      exact ((((hperm.append_left _).map LogWrite.buf).append_left _).append_left _)

theorem own_start (files : ℕ → ℕ) :
  Own (start files)
  := by
  constructor
  case tickets => exact TicketQueue.sound_empty
  case nodup => exact .nil
  case flagged => exact nofun
  case cleared => exact nofun
  case threads =>
    intro t
    constructor
    case gone => exact fun _ _ _ _ => rfl
    case back => exact fun _ => rfl
    case one => exact fun _ => rfl
    case pc => rfl
  case unpublished => exact nofun

end Logger

end Proactor
