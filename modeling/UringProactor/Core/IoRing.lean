import Mathlib

/-!
# The ring of submissions

`IoRing` holds the submission queue entries (SQEs) that have been prepared since the last
submit and those the kernel has not finished.  An SQE carries its operation and its
`user_data`, which says whose completion it will be.  `io_uring_get_sqe` returns null when
`queue_depth` SQEs have been prepared since the last submit.
-/

namespace Proactor

/-- What `user_data` points to: the token of the accept coroutine, the sentinel of the
wake-up read, or the token in the read or write coroutine frame of the channel `c`.  A
channel's frames have fixed addresses, so its index identifies the tokens. -/
inductive UserData where
  | accept
  | wakeup
  | read (c : ℕ)
  | write (c : ℕ)
deriving DecidableEq

/-- The operation of an SQE.  The iovecs of a `writev` are the first `nr` entries of the
array `iovec_` of the channel that its `user_data` names. -/
inductive SqeOp where
  | multishotAccept
  | readWakeup
  | multishotRecv (fd : Int)
  | writev (fd : Int) (nr : ℕ)
deriving DecidableEq

/-- The number of iovecs of an operation. -/
def SqeOp.nr : SqeOp → ℕ
  | .writev _ nr => nr
  | _ => 0

/-- A prepared SQE. -/
structure Sqe where
  op : SqeOp
  data : UserData
deriving DecidableEq

/-- `IoRing`. -/
structure IoRing where
  /-- `queue_depth_`. -/
  depth : ℕ
  /-- The SQEs prepared since the last submit. -/
  sq : List Sqe
  /-- The submitted SQEs whose last completion has not been handled. -/
  inflight : List Sqe
  /-- Whether `io_uring_get_sqe` has returned null. -/
  failed : Bool

namespace IoRing

/-- `IoRing::get_sqe` followed by the preparation of the entry; `none` stands for the
exception. -/
def prep (r : IoRing) (sqe : Sqe) : Option IoRing :=
  if r.sq.length < r.depth then
    some { r with sq := r.sq ++ [sqe] }
  else
    none

/-- The ring after `io_uring_get_sqe` returned null. -/
def fail (r : IoRing) : IoRing := { r with failed := true }

/-- `IoRing::submit`. -/
def submit (r : IoRing) : IoRing := { r with sq := [], inflight := r.inflight ++ r.sq }

/-- The ring after a completion of the `i`-th SQE in flight; `more` is `IORING_CQE_F_MORE`. -/
def reap (r : IoRing) (i : ℕ) (more : Bool) : IoRing :=
  if more then r else { r with inflight := r.inflight.eraseIdx i }

/-- The number of outstanding SQEs, prepared or submitted, with the given `user_data`. -/
def outstanding (r : IoRing) (d : UserData) : ℕ :=
  ((r.sq ++ r.inflight).map Sqe.data).count d

variable {r r' : IoRing} {sqe : Sqe} (d : UserData)

/-! ### Outstanding SQEs -/

@[simp]
theorem outstanding_fail :
  r.fail.outstanding d = r.outstanding d
  := rfl

@[simp]
theorem outstanding_submit :
  r.submit.outstanding d = r.outstanding d
  := by
  simp only [outstanding, submit, List.nil_append, List.map_append, List.count_append]
  apply Nat.add_comm

theorem outstanding_pos (h : sqe ∈ r.sq ++ r.inflight) :
  0 < r.outstanding sqe.data
  := List.count_pos_iff.mpr (List.mem_map_of_mem h)

theorem prep_eq_some (h : r.prep sqe = some r') :
  r' = { r with sq := r.sq ++ [sqe] }
  := by
  rw [prep] at h
  split at h
  · cases h
    rfl
  · cases h

/-- Preparing an SQE makes one more outstanding. -/
theorem outstanding_prep (h : r.prep sqe = some r') :
  r'.outstanding d = r.outstanding d + if sqe.data = d then 1 else 0
  := by
  cases prep_eq_some h
  simp only [outstanding, List.map_append, List.count_append, List.map_cons, List.map_nil,
    List.count_singleton, beq_iff_eq]
  rw [Nat.add_right_comm]

/-- The last completion of an SQE makes one less outstanding. -/
theorem outstanding_reap {i : ℕ} (more : Bool) (h : r.inflight[i]? = some sqe) :
  r.outstanding d = (r.reap i more).outstanding d
    + if more = false ∧ sqe.data = d then 1 else 0
  := by
  cases more with
  | true => simp [reap]
  | false =>
      obtain ⟨hi, rfl⟩ := List.getElem?_eq_some_iff.mp h
      have hperm := (List.getElem_cons_eraseIdx_perm hi).map Sqe.data
      simp only [outstanding, reap, List.map_append, List.count_append]
      rw [← hperm.count_eq, List.map_cons, List.count_cons]
      simp [Nat.add_assoc]

/-! ### The SQEs of the other channels -/

/-- `Keeps c r r'`: the SQEs of all channels but `c` are the same in `r` and `r'`, and no
failure of `io_uring_get_sqe` is forgotten. -/
structure Keeps (c : ℕ) (r r' : IoRing) : Prop where
  recvs : ∀ d, d ≠ c → r'.outstanding (.read d) = r.outstanding (.read d)
  writes : ∀ d, d ≠ c → r'.outstanding (.write d) = r.outstanding (.write d)
  failed : r'.failed = false → r.failed = false

namespace Keeps

variable {c : ℕ} {r'' : IoRing}

theorem refl :
  Keeps c r r
  := ⟨fun _ _ => rfl, fun _ _ => rfl, id⟩

theorem trans (h : Keeps c r r') (h' : Keeps c r' r'') :
  Keeps c r r''
  := by
  constructor
  · intro d hd
    rw [h'.recvs d hd, h.recvs d hd]
  · intro d hd
    rw [h'.writes d hd, h.writes d hd]
  · intro hfailed
    apply h.failed (h'.failed hfailed)

/-- Preparing an SQE that is of no other channel. -/
theorem of_prep (hprep : r.prep sqe = some r')
    (hdata : ∀ d, d ≠ c → sqe.data ≠ .read d ∧ sqe.data ≠ .write d) :
  Keeps c r r'
  := by
  constructor
  · intro d hd
    rw [outstanding_prep _ hprep, if_neg (hdata d hd).1]
    rfl
  · intro d hd
    rw [outstanding_prep _ hprep, if_neg (hdata d hd).2]
    rfl
  · rw [prep_eq_some hprep]
    exact id

theorem of_prep_read {op : SqeOp} (hprep : r.prep ⟨op, .read c⟩ = some r') :
  Keeps c r r'
  := by
  apply of_prep hprep
  intro d hd
  simp [Ne.symm hd]

theorem of_prep_write {op : SqeOp} (hprep : r.prep ⟨op, .write c⟩ = some r') :
  Keeps c r r'
  := by
  apply of_prep hprep
  intro d hd
  simp [Ne.symm hd]

/-- A failure of `io_uring_get_sqe`. -/
theorem fail :
  Keeps c r r.fail
  := by
  refine ⟨fun _ _ => rfl, fun _ _ => rfl, ?_⟩
  intro h
  cases h

theorem submit :
  Keeps c r r.submit
  := by
  refine ⟨?_, ?_, id⟩
  · intro d _
    apply outstanding_submit
  · intro d _
    apply outstanding_submit

/-- A completion of an SQE that is of no other channel. -/
theorem reap {i : ℕ} (more : Bool) (hsqe : r.inflight[i]? = some sqe)
    (hdata : ∀ d, d ≠ c → sqe.data ≠ .read d ∧ sqe.data ≠ .write d) :
  Keeps c r (r.reap i more)
  := by
  constructor
  · intro d hd
    rw [outstanding_reap (.read d) more hsqe, if_neg (fun h => (hdata d hd).1 h.2)]
    rfl
  · intro d hd
    rw [outstanding_reap (.write d) more hsqe, if_neg (fun h => (hdata d hd).2 h.2)]
    rfl
  · rw [IoRing.reap]
    split <;> exact id

end Keeps

/-! ### The `writev` SQEs of a channel -/

end IoRing

/-- The number of iovecs of the SQE, if it is a `writev` of the channel `c`. -/
def Sqe.writev? (c : ℕ) (sqe : Sqe) : Option ℕ :=
  if sqe.data = .write c then some sqe.op.nr else none

theorem Sqe.writev?_of_eq {c : ℕ} {sqe : Sqe} (h : sqe.data = .write c) :
  sqe.writev? c = some sqe.op.nr
  := if_pos h

theorem Sqe.writev?_of_ne {c : ℕ} {sqe : Sqe} (h : sqe.data ≠ .write c) :
  sqe.writev? c = none
  := if_neg h

namespace IoRing

/-- The outstanding SQEs, prepared or submitted. -/
def entries (r : IoRing) : Multiset Sqe := ↑(r.sq ++ r.inflight)

/-- The numbers of iovecs of the outstanding `writev` SQEs of the channel `c`. -/
def writevs (r : IoRing) (c : ℕ) : Multiset ℕ := r.entries.filterMap (Sqe.writev? c)

variable {r r' r'' : IoRing} {sqe : Sqe} {c : ℕ}

theorem entries_submit :
  r.submit.entries = r.entries
  := by
  apply Multiset.coe_eq_coe.mpr
  change (r.inflight ++ r.sq).Perm (r.sq ++ r.inflight)
  exact List.perm_append_comm

theorem entries_prep (h : r.prep sqe = some r') :
  r'.entries = sqe ::ₘ r.entries
  := by
  rw [prep_eq_some h]
  apply Multiset.coe_eq_coe.mpr
  rw [List.append_assoc]
  exact List.perm_middle

/-- The last completion of an SQE takes it out of the outstanding ones. -/
theorem entries_reap {i : ℕ} (h : r.inflight[i]? = some sqe) :
  r.entries = sqe ::ₘ (r.reap i false).entries
  := by
  obtain ⟨hi, rfl⟩ := List.getElem?_eq_some_iff.mp h
  apply Multiset.coe_eq_coe.mpr
  exact ((List.getElem_cons_eraseIdx_perm hi).symm.append_left _).trans List.perm_middle

theorem writevs_submit :
  r.submit.writevs c = r.writevs c
  := by
  rw [writevs, entries_submit]
  rfl

theorem writevs_prep {op : SqeOp} (h : r.prep ⟨op, .write c⟩ = some r') :
  r'.writevs c = op.nr ::ₘ r.writevs c
  := by
  rw [writevs, entries_prep h]
  apply Multiset.filterMap_cons_some
  exact Sqe.writev?_of_eq rfl

theorem writevs_prep_of_ne (h : r.prep sqe = some r') (hne : sqe.data ≠ .write c) :
  r'.writevs c = r.writevs c
  := by
  rw [writevs, entries_prep h]
  apply Multiset.filterMap_cons_none
  exact Sqe.writev?_of_ne hne

theorem writevs_reap {i : ℕ} {op : SqeOp} (h : r.inflight[i]? = some ⟨op, .write c⟩) :
  r.writevs c = op.nr ::ₘ (r.reap i false).writevs c
  := by
  rw [writevs, entries_reap h]
  apply Multiset.filterMap_cons_some
  exact Sqe.writev?_of_eq rfl

theorem writevs_reap_of_ne {i : ℕ} (more : Bool) (h : r.inflight[i]? = some sqe)
    (hne : sqe.data ≠ .write c) :
  (r.reap i more).writevs c = r.writevs c
  := by
  cases more with
  | true => rfl
  | false =>
      symm
      rw [writevs, entries_reap h]
      apply Multiset.filterMap_cons_none
      exact Sqe.writev?_of_ne hne

theorem failed_reap {i : ℕ} {more : Bool} :
  (r.reap i more).failed = r.failed
  := by
  cases more <;> rfl

theorem sq_reap {i : ℕ} {more : Bool} :
  (r.reap i more).sq = r.sq ∧ (r.reap i more).depth = r.depth
  := by
  cases more <;> exact ⟨rfl, rfl⟩

/-- The iovecs of an outstanding `writev` are counted. -/
theorem mem_writevs (h : sqe ∈ r.sq ++ r.inflight) (hdata : sqe.data = .write c) :
  sqe.op.nr ∈ r.writevs c
  := (Multiset.mem_filterMap _ _).mpr ⟨sqe, h, Sqe.writev?_of_eq hdata⟩

/-- The outstanding `writev` SQEs are as many as are counted. -/
theorem card_writevs (r : IoRing) (c : ℕ) :
  (r.writevs c).card = r.outstanding (.write c)
  := by
  rw [writevs, entries, outstanding]
  induction r.sq ++ r.inflight with
  | nil => rfl
  | cons sqe l ih =>
      rw [← Multiset.cons_coe, List.map_cons, List.count_cons, ← ih]
      by_cases hdata : sqe.data = .write c
      · rw [Multiset.filterMap_cons_some _ _ _ (Sqe.writev?_of_eq hdata), Multiset.card_cons, hdata]
        simp
      · rw [Multiset.filterMap_cons_none _ _ (Sqe.writev?_of_ne hdata)]
        simp [hdata]

/-! ### What the functions of a channel do to the ring -/

/-- Between `r` and `r'` the channel `c` prepared at most `k` SQEs, and `io_uring_get_sqe` has
failed only if it had failed before or there was no room for `k`. -/
structure Extends (c k : ℕ) (r r' : IoRing) : Prop where
  depth : r'.depth = r.depth
  inflight : r'.inflight = r.inflight
  sq : ∃ l, r'.sq = r.sq ++ l ∧ l.length ≤ k
    ∧ ∀ sqe ∈ l, sqe.data = .read c ∨ sqe.data = .write c
  kept : r.failed = true → r'.failed = true
  failed : r'.failed = true → r.failed = true ∨ r.depth < r.sq.length + k

namespace Extends

variable {k k' : ℕ}

theorem refl :
  Extends c k r r
  := ⟨rfl, rfl, ⟨[], (List.append_nil _).symm, Nat.zero_le _, nofun⟩, id, .inl⟩

theorem trans (h : Extends c k r r') (h' : Extends c k' r' r'') :
  Extends c (k + k') r r''
  := by
  obtain ⟨l, hsq, hlen, hdata⟩ := h.sq
  obtain ⟨l', hsq', hlen', hdata'⟩ := h'.sq
  refine ⟨h'.depth.trans h.depth, h'.inflight.trans h.inflight, ⟨l ++ l', ?_, ?_, ?_⟩,
    fun hfailed => h'.kept (h.kept hfailed), ?_⟩
  · rw [hsq', hsq, List.append_assoc]
  · rw [List.length_append]
    omega
  · intro sqe hsqe
    obtain hsqe | hsqe := List.mem_append.mp hsqe
    · exact hdata sqe hsqe
    · exact hdata' sqe hsqe
  · intro hfailed
    obtain hbefore | hfull := h'.failed hfailed
    · obtain hbefore | hfull := h.failed hbefore
      · exact .inl hbefore
      · right
        omega
    · right
      rw [h.depth, hsq, List.length_append] at hfull
      omega

/-- Preparing an SQE of the channel. -/
theorem of_prep (hprep : r.prep sqe = some r') (hdata : sqe.data = .read c ∨ sqe.data = .write c) :
  Extends c 1 r r'
  := by
  rw [prep_eq_some hprep]
  refine ⟨rfl, rfl, ⟨[sqe], rfl, le_rfl, ?_⟩, id, .inl⟩
  intro sqe' hsqe
  rw [List.mem_singleton.mp hsqe]
  exact hdata

/-- A failure of `io_uring_get_sqe`. -/
theorem of_fail (hprep : r.prep sqe = none) :
  Extends c 1 r r.fail
  := by
  refine ⟨rfl, rfl, ⟨[], (List.append_nil _).symm, Nat.zero_le _, nofun⟩, fun _ => rfl, ?_⟩
  intro _
  right
  rw [prep] at hprep
  split at hprep
  case isTrue => cases hprep
  case isFalse hfull => omega

/-- With room for the SQEs, `io_uring_get_sqe` does not fail. -/
theorem failed_eq (h : Extends c k r r') (hfailed : r.failed = false)
    (hroom : r.sq.length + k ≤ r.depth) :
  r'.failed = false
  := by
  rw [← Bool.not_eq_true]
  intro htrue
  obtain hbefore | hfull := h.failed htrue
  · rw [hfailed] at hbefore
    cases hbefore
  · omega

/-- The `writev` SQEs of the other channels stay. -/
theorem writevs_eq (h : Extends c k r r') {d : ℕ} (hd : d ≠ c) :
  r'.writevs d = r.writevs d
  := by
  obtain ⟨l, hsq, -, hdata⟩ := h.sq
  have hnone : l.filterMap (Sqe.writev? d) = [] := by
    apply List.filterMap_eq_nil_iff.mpr
    intro sqe hsqe
    apply Sqe.writev?_of_ne
    obtain hread | hwrite := hdata sqe hsqe
    · rw [hread]
      nofun
    · rw [hwrite, Ne, UserData.write.injEq]
      exact hd.symm
  simp only [writevs, entries, hsq, h.inflight, Multiset.filterMap_coe, List.filterMap_append,
    hnone, List.append_nil]

end Extends

end IoRing

end Proactor
