import UringProactor.Util.Timestamp

/-!
# The strings that are returned

A string is returned whole as long as the sequence counter does its work: no thread starts to
copy strings in while another does, no thread copies a string out before the first update, and
the counter does not go all the way round during a copy.  The code ensures none of these: the
exchange of `cached_second_` admits one thread for every second, not one at a time, and a
thread that does not win it reads at once.
-/

namespace Proactor

/-! ### Steps -/

namespace TimestampCache

/-- The steps of the threads. -/
inductive Steps (s : TimestampCache) : TimestampEvent → TimestampCache → Prop where
  | call {t : ℕ} (f : TextField) (hpc : s.threads t = .idle) :
      Steps s (.call t f) (s.goto t (.time f))
  | time {t : ℕ} {f : TextField} (now : ℤ) (hpc : s.threads t = .time f) :
      Steps s (.time t now) (s.goto t (.load f now))
  | won {t : ℕ} {f : TextField} {now expected : ℤ} (st : Stamp)
      (hpc : s.threads t = .exchange f now expected) :
      Steps s (.exchange t st) { s.goto t (.enter f st) with
        cachedSecond := now
        updates := s.updates ++ [st] }
  | lost {t : ℕ} {f : TextField} {now expected : ℤ} (st : Stamp)
      (hpc : s.threads t = .exchange f now expected) :
      Steps s (.exchange t st) (s.goto t (.loadSeq f))
  | copyIn {t i : ℕ} {f g : TextField} {st : Stamp} {left : List ℕ}
      (hpc : s.threads t = .copyIn f st g left) :
      Steps s (.byte t i) { s.goto t (.copyIn f st g (left.erase i)) with
        lock := s.lock.store (g, i) (st.bytes (g, i)) }
  | copyOut {t i s1 begun : ℕ} {f : TextField} {left : List ℕ} {out : ℕ → UInt8}
      (hpc : s.threads t = .copyOut f s1 begun left out) :
      Steps s (.byte t i) (s.goto t (.copyOut f s1 begun (left.erase i)
        (Function.update out i (s.lock.cells (f, i)))))
  | same {t : ℕ} {f : TextField} {now : ℤ} (hpc : s.threads t = .load f now) :
      Steps s (.next t) (s.goto t (.loadSeq f))
  | outdated {t : ℕ} {f : TextField} {now : ℤ} (hpc : s.threads t = .load f now) :
      Steps s (.next t) (s.goto t (.exchange f now s.cachedSecond))
  | enter {t : ℕ} {f : TextField} {st : Stamp} (hpc : s.threads t = .enter f st) :
      Steps s (.next t)
        { s.goto t (.copyIn f st .datetime (List.range TextField.datetime.size)) with
          lock := s.lock.bump }
  | turn {t : ℕ} {f : TextField} {st : Stamp} (hpc : s.threads t = .copyIn f st .datetime []) :
      Steps s (.next t) (s.goto t (.copyIn f st .date (List.range TextField.date.size)))
  | leave {t : ℕ} {f : TextField} {st : Stamp} (hpc : s.threads t = .copyIn f st .date []) :
      Steps s (.next t) { s.goto t (.loadSeq f) with lock := s.lock.bump }
  | spin {t : ℕ} {f : TextField} (hpc : s.threads t = .loadSeq f) : Steps s (.next t) s
  | begin {t : ℕ} {f : TextField} (hpc : s.threads t = .loadSeq f) (heven : s.seq % 2 ≠ 1) :
      Steps s (.next t)
        (s.goto t (.copyOut f s.seq s.lock.count (List.range f.size) (fun _ => 0)))
  | done {t s1 begun : ℕ} {f : TextField} {out : ℕ → UInt8}
      (hpc : s.threads t = .copyOut f s1 begun [] out) (hseq : s1 = s.seq) :
      Steps s (.next t) { s.goto t .idle with
        returned := s.returned ++ [(f, (List.range f.size).map out)] }
  | retry {t s1 begun : ℕ} {f : TextField} {out : ℕ → UInt8}
      (hpc : s.threads t = .copyOut f s1 begun [] out) :
      Steps s (.next t) (s.goto t (.loadSeq f))

variable {s s' : TimestampCache} {e : TimestampEvent} {t : ℕ}

theorem copy_cases {i : ℕ} (h : s.copy t i = some s') :
  Steps s (.byte t i) s'
  := by
  rw [copy] at h
  split at h
  case h_1 f st g left hpc =>
    split at h
    · cases h
      exact .copyIn hpc
    · cases h
  case h_2 f s1 begun left out hpc =>
    split at h
    · cases h
      exact .copyOut hpc
    · cases h
  case h_3 => cases h

theorem next_cases (h : s.next t = some s') :
  Steps s (.next t) s'
  := by
  rw [next] at h
  split at h
  case h_1 f now hpc =>
    split at h
    · cases h
      exact .same hpc
    · cases h
      exact .outdated hpc
  case h_2 f st hpc =>
    cases h
    exact .enter hpc
  case h_3 f st hpc =>
    cases h
    exact .turn hpc
  case h_4 f st hpc =>
    cases h
    exact .leave hpc
  case h_5 f hpc =>
    split at h
    case isTrue =>
      cases h
      exact .spin hpc
    case isFalse heven =>
      cases h
      exact .begin hpc heven
  case h_6 f s1 begun out hpc =>
    split at h
    case isTrue hseq =>
      cases h
      exact .done hpc hseq
    case isFalse =>
      cases h
      exact .retry hpc
  case h_7 => cases h

/-- Every step is in the list. -/
theorem step_cases (h : s.step e = some s') :
  Steps s e s'
  := by
  cases e with
  | call t f =>
      rw [step] at h
      split at h
      case h_1 hpc =>
        cases h
        exact .call f hpc
      case h_2 => cases h
  | time t now =>
      rw [step] at h
      split at h
      case h_1 f hpc =>
        cases h
        exact .time now hpc
      case h_2 => cases h
  | exchange t st =>
      rw [step] at h
      split at h
      case h_1 f now expected hpc =>
        split at h
        · cases h
          exact .won st hpc
        · cases h
          exact .lost st hpc
      case h_2 => cases h
  | byte t i => exact copy_cases h
  | next t => exact next_cases h

end TimestampCache

/-! ### The invariant -/

/-- The bytes of the two strings. -/
def TextField.cells : Set (TextField × ℕ) := {c | c.2 < c.1.size}

/-- The bytes that are written when those of `g` in `left` are still to be copied. -/
def TextField.written (g : TextField) (left : List ℕ) : Set (TextField × ℕ) :=
  {c | c ∈ cells ∧ (c.1 = g → c.2 ∉ left) ∧ (c.1 = .date → g = .date)}

namespace TimestampPc

/-- The thread is between its two increments of `seq_`. -/
def Writing : TimestampPc → Prop
  | .copyIn _ _ _ _ => True
  | _ => False

/-- The condition under which a thread goes on, given how often `seq_` has been incremented:
it begins to copy strings in when `seq_` is even, it begins to copy a string out when `seq_` has
been incremented, and it ends that copy before `seq_` has gone all the way round. -/
def Guarded (count : ℕ) : TimestampPc → Prop
  | .enter _ _ => count % 2 = 0
  | .loadSeq _ => count ≠ 0
  | .copyOut _ _ begun _ _ => count < begun + 2 ^ 32
  | _ => True

instance (count : ℕ) : ∀ pc : TimestampPc, Decidable (pc.Guarded count)
  | .enter _ _ => inferInstanceAs (Decidable (_ = _))
  | .loadSeq _ => inferInstanceAs (Decidable (_ ≠ _))
  | .copyOut _ _ _ _ _ => inferInstanceAs (Decidable (_ < _))
  | .idle | .time _ | .load _ _ | .exchange _ _ _ | .copyIn _ _ _ _ =>
      inferInstanceAs (Decidable True)

/-- What holds at each place in the code. -/
def Ok (l : SeqLock (TextField × ℕ) UInt8) (updates : List Stamp) : TimestampPc → Prop
  | .enter _ st => st ∈ updates
  | .copyIn _ st g left => st ∈ updates ∧ Set.EqOn l.cells st.bytes (g.written left)
  | .copyOut f s1 begun left out => s1 = begun % 2 ^ 32 ∧ begun ≠ 0
      ∧ l.Copies begun (Prod.mk f) out {i | i < f.size ∧ i ∉ left}
  | _ => True

variable {l l' : SeqLock (TextField × ℕ) UInt8} {updates updates' : List Stamp}
  {pc : TimestampPc}

/-- What holds of a thread depends on the cells only while it writes, or through its copy. -/
theorem Ok.mono (h : pc.Ok l updates) (hupdates : updates ⊆ updates')
    (hcells : pc.Writing → l'.cells = l.cells)
    (hcopies : ∀ begun f out (S : Set ℕ), l.Copies begun (Prod.mk f) out S →
      l'.Copies begun (Prod.mk f) out S) :
  pc.Ok l' updates'
  := by
  cases pc with
  | enter f st => exact hupdates h
  | copyIn f st g left =>
      rw [Ok, hcells trivial]
      exact ⟨hupdates h.1, h.2⟩
  | copyOut f s1 begun left out => exact ⟨h.1, h.2.1, hcopies _ _ _ _ h.2.2⟩
  | _ => trivial

end TimestampPc

namespace TimestampCache

variable {s s' : TimestampCache} {e : TimestampEvent} {t : ℕ} {pc : TimestampPc}

/-- The condition on the steps. -/
def Guarded (s : TimestampCache) : TimestampEvent → Prop
  | .next t => (s.threads t).Guarded s.lock.count
  | _ => True

instance (s : TimestampCache) : ∀ e, Decidable (Guarded s e)
  | .next _ => inferInstanceAs (Decidable (TimestampPc.Guarded _ _))
  | .call _ _ | .time _ _ | .exchange _ _ | .byte _ _ => inferInstanceAs (Decidable True)

/-- The invariant of the cache. -/
structure Inv (s : TimestampCache) : Prop where
  odd : ∀ t, (s.threads t).Writing → s.lock.count % 2 = 1
  one : ∀ t u, (s.threads t).Writing → (s.threads u).Writing → t = u
  /-- Between the updates the cache holds the strings of one of them. -/
  settled : s.lock.count % 2 = 0 → s.lock.count ≠ 0 →
    ∃ st ∈ s.updates, Set.EqOn s.lock.cells st.bytes TextField.cells
  threads : ∀ t, (s.threads t).Ok s.lock s.updates
  returned : ∀ f text, (f, text) ∈ s.returned → ∃ st ∈ s.updates, text = st.text f

theorem seq_mod_two (s : TimestampCache) :
  s.seq % 2 = s.lock.count % 2
  := by
  rw [seq]
  omega

/-- A step of the thread `t`.  When another thread is writing, it leaves the strings alone and
stays outside of the update. -/
theorem Inv.move (h : Inv s) {second : ℤ} {lock : SeqLock (TextField × ℕ) UInt8}
    {updates : List Stamp} {returned : List (TextField × List UInt8)}
    (hok : pc.Ok lock updates) (hodd : pc.Writing → lock.count % 2 = 1)
    (hothers : ∀ u, u ≠ t → (s.threads u).Writing → ¬ pc.Writing ∧ lock = s.lock)
    (hcopies : ∀ begun f out (S : Set ℕ), s.lock.Copies begun (Prod.mk f) out S →
      lock.Copies begun (Prod.mk f) out S)
    (hsettled : lock.count % 2 = 0 → lock.count ≠ 0 →
      ∃ st ∈ updates, Set.EqOn lock.cells st.bytes TextField.cells)
    (hupdates : s.updates ⊆ updates)
    (hreturned : ∀ f text, (f, text) ∈ returned →
      (f, text) ∈ s.returned ∨ ∃ st ∈ updates, text = st.text f) :
  Inv { s.goto t pc with
    cachedSecond := second, lock := lock, updates := updates, returned := returned }
  := by
  have hself : (s.goto t pc).threads t = pc := Function.update_self ..
  have hother : ∀ u, u ≠ t → (s.goto t pc).threads u = s.threads u := by
    intro u hu
    apply Function.update_of_ne hu
  constructor
  case odd =>
    intro u hu
    change ((s.goto t pc).threads u).Writing at hu
    rcases eq_or_ne u t with rfl | hne
    · rw [hself] at hu
      apply hodd hu
    · rw [hother u hne] at hu
      rw [(hothers u hne hu).2]
      apply h.odd u hu
  case one =>
    intro u u' hu hu'
    change ((s.goto t pc).threads u).Writing at hu
    change ((s.goto t pc).threads u').Writing at hu'
    by_cases hut : u = t <;> by_cases hut' : u' = t
    · rw [hut, hut']
    · rw [hut, hself] at hu
      rw [hother u' hut'] at hu'
      exact absurd hu (hothers u' hut' hu').1
    · rw [hother u hut] at hu
      rw [hut', hself] at hu'
      exact absurd hu' (hothers u hut hu).1
    · rw [hother u hut] at hu
      rw [hother u' hut'] at hu'
      apply h.one u u' hu hu'
  case settled => exact hsettled
  case threads =>
    intro u
    change ((s.goto t pc).threads u).Ok lock updates
    rcases eq_or_ne u t with rfl | hne
    · rw [hself]
      exact hok
    · rw [hother u hne]
      apply (h.threads u).mono hupdates _ hcopies
      intro hu
      rw [(hothers u hne hu).2]
  case returned =>
    intro f text hmem
    rcases hreturned f text hmem with hold | hnew
    · obtain ⟨st, hst, htext⟩ := h.returned f text hold
      exact ⟨st, hupdates hst, htext⟩
    · exact hnew

/-- A step that leaves the strings alone, to a place outside of the update. -/
theorem Inv.quiet (h : Inv s) {second : ℤ} {updates : List Stamp}
    {returned : List (TextField × List UInt8)} (hok : pc.Ok s.lock updates)
    (hquiet : ¬ pc.Writing) (hupdates : s.updates ⊆ updates)
    (hreturned : ∀ f text, (f, text) ∈ returned →
      (f, text) ∈ s.returned ∨ ∃ st ∈ updates, text = st.text f) :
  Inv { s.goto t pc with cachedSecond := second, updates := updates, returned := returned }
  := by
  apply h.move hok (absurd · hquiet) (fun _ _ _ => ⟨hquiet, rfl⟩) (fun _ _ _ _ => id) _ hupdates
    hreturned
  intro heven hpos
  obtain ⟨st, hst, heq⟩ := h.settled heven hpos
  exact ⟨st, hupdates hst, heq⟩

/-- The thread goes on outside of the update. -/
theorem Inv.goto (h : Inv s) (hok : pc.Ok s.lock s.updates) (hquiet : ¬ pc.Writing) :
  Inv (s.goto t pc)
  := h.quiet hok hquiet (List.Subset.refl _) (fun _ _ => .inl)

/-- The first increment of an update, when `seq_` is even. -/
theorem Inv.enter (h : Inv s) {f : TextField} {st : Stamp} (hpc : s.threads t = .enter f st)
    (heven : s.lock.count % 2 = 0) :
  Inv { s.goto t (.copyIn f st .datetime (List.range TextField.datetime.size)) with
    lock := s.lock.bump }
  := by
  have hst := h.threads t
  rw [hpc] at hst
  have hodd : s.lock.bump.count % 2 = 1 := by
    change (s.lock.count + 1) % 2 = 1
    omega
  apply h.move _ (fun _ => hodd) _ (fun _ _ _ _ => SeqLock.Copies.bump) _ (List.Subset.refl _)
    (fun _ _ => .inl)
  · refine ⟨hst, ?_⟩
    -- nothing is written yet: a byte of the first string is still to be copied
    rintro ⟨g, i⟩ ⟨hlt, hleft, hdate⟩
    cases g with
    | datetime => exact absurd (List.mem_range.mpr hlt) (hleft rfl)
    | date => cases hdate rfl
  · intro u hne hu
    rw [h.odd u hu] at heven
    cases heven
  · intro heven'
    rw [hodd] at heven'
    cases heven'

/-- A writer is alone. -/
theorem Inv.alone (h : Inv s) (ht : (s.threads t).Writing) {u : ℕ} (hne : u ≠ t) :
  ¬ (s.threads u).Writing
  := fun hu => hne (h.one u t hu ht)

/-- The copy of a byte into the cache. -/
theorem Inv.copyIn (h : Inv s) {i : ℕ} {f g : TextField} {st : Stamp} {left : List ℕ}
    (hpc : s.threads t = .copyIn f st g left) :
  Inv { s.goto t (.copyIn f st g (left.erase i)) with
    lock := s.lock.store (g, i) (st.bytes (g, i)) }
  := by
  have hwriting : (s.threads t).Writing := by
    rw [hpc]
    trivial
  have hodd := h.odd t hwriting
  obtain ⟨hst, heq⟩ : (TimestampPc.copyIn f st g left).Ok s.lock s.updates := hpc ▸ h.threads t
  refine h.move ?_ (fun _ => hodd) (fun u hne hu => absurd hu (h.alone hwriting hne))
    (fun _ _ _ _ hcopies => hcopies.store hodd _ _) ?_ (List.Subset.refl _) (fun _ _ => .inl)
  · refine ⟨hst, (SeqLock.eqOn_store heq (g, i)).mono ?_⟩
    rintro ⟨g', j⟩ ⟨hlt, hleft, hdate⟩
    by_cases hnew : (g', j) = (g, i)
    · exact .inl hnew
    · refine .inr ⟨hlt, ?_, hdate⟩
      rintro rfl hj
      have hij : j ≠ i := by
        rintro rfl
        exact hnew rfl
      apply hleft rfl ((List.mem_erase_of_ne hij).mpr hj)
  · intro heven
    change s.lock.count % 2 = 0 at heven
    rw [hodd] at heven
    cases heven

/-- The update turns from the first string to the second. -/
theorem Inv.turn (h : Inv s) {f : TextField} {st : Stamp}
    (hpc : s.threads t = .copyIn f st .datetime []) :
  Inv (s.goto t (.copyIn f st .date (List.range TextField.date.size)))
  := by
  have hwriting : (s.threads t).Writing := by
    rw [hpc]
    trivial
  obtain ⟨hst, heq⟩ : (TimestampPc.copyIn f st .datetime []).Ok s.lock s.updates :=
    hpc ▸ h.threads t
  apply h.move _ (fun _ => h.odd t hwriting) (fun u hne hu => absurd hu (h.alone hwriting hne))
    (fun _ _ _ _ => id) h.settled (List.Subset.refl _) (fun _ _ => .inl)
  refine ⟨hst, heq.mono ?_⟩
  rintro ⟨g, i⟩ ⟨hlt, hleft, hdate⟩
  refine ⟨hlt, fun _ => List.not_mem_nil, ?_⟩
  rintro rfl
  exact absurd (List.mem_range.mpr hlt) (hleft rfl)

/-- The second increment of an update. -/
theorem Inv.leave (h : Inv s) {f : TextField} {st : Stamp}
    (hpc : s.threads t = .copyIn f st .date []) :
  Inv { s.goto t (.loadSeq f) with lock := s.lock.bump }
  := by
  have hwriting : (s.threads t).Writing := by
    rw [hpc]
    trivial
  obtain ⟨hst, heq⟩ : (TimestampPc.copyIn f st .date []).Ok s.lock s.updates :=
    hpc ▸ h.threads t
  refine h.move trivial False.elim (fun u hne hu => absurd hu (h.alone hwriting hne))
    (fun _ _ _ _ => SeqLock.Copies.bump) ?_ (List.Subset.refl _) (fun _ _ => .inl)
  intro _ _
  refine ⟨st, hst, heq.mono ?_⟩
  intro c hc
  exact ⟨hc, fun _ => List.not_mem_nil, fun _ => rfl⟩

/-- The start of a copy out of the cache. -/
theorem Inv.begin (h : Inv s) (f : TextField) (heven : s.seq % 2 ≠ 1)
    (hpos : s.lock.count ≠ 0) :
  Inv (s.goto t (.copyOut f s.seq s.lock.count (List.range f.size) (fun _ => 0)))
  := by
  rw [seq_mod_two] at heven
  refine h.goto ?_ not_false
  refine ⟨rfl, hpos, ?_⟩
  apply (SeqLock.copies_start (by omega) (Prod.mk f) _).mono
  rintro i ⟨hlt, hleft⟩
  exact hleft (List.mem_range.mpr hlt)

/-- The copy of a byte out of the cache. -/
theorem Inv.copyOut (h : Inv s) {i s1 begun : ℕ} {f : TextField} {left : List ℕ}
    {out : ℕ → UInt8} (hpc : s.threads t = .copyOut f s1 begun left out) :
  Inv (s.goto t (.copyOut f s1 begun (left.erase i)
    (Function.update out i (s.lock.cells (f, i)))))
  := by
  obtain ⟨hs1, hpos, hcopies⟩ :
    (TimestampPc.copyOut f s1 begun left out).Ok s.lock s.updates := hpc ▸ h.threads t
  refine h.goto ?_ not_false
  refine ⟨hs1, hpos, (hcopies.load i).mono ?_⟩
  rintro j ⟨hlt, hleft⟩
  rcases eq_or_ne j i with rfl | hne
  · exact .inl rfl
  · refine .inr ⟨hlt, ?_⟩
    rwa [List.mem_erase_of_ne hne] at hleft

/-- A copy that ends with the count it began with is the string of one update. -/
theorem Inv.done (h : Inv s) {s1 begun : ℕ} {f : TextField} {out : ℕ → UInt8}
    (hpc : s.threads t = .copyOut f s1 begun [] out) (hseq : s1 = s.seq)
    (hlt : s.lock.count < begun + 2 ^ 32) :
  Inv { s.goto t .idle with returned := s.returned ++ [(f, (List.range f.size).map out)] }
  := by
  obtain ⟨hs1, hpos, hcopies⟩ :
    (TimestampPc.copyOut f s1 begun [] out).Ok s.lock s.updates := hpc ▸ h.threads t
  have hmod : s.lock.count % 2 ^ 32 = begun % 2 ^ 32 := hseq.symm.trans hs1
  have hcount := hcopies.count_eq hmod hlt
  have hcopied := hcopies.eqOn hcount
  obtain ⟨st, hst, heq⟩ := h.settled (hcount ▸ hcopies.even) (hcount ▸ hpos)
  have htext : (List.range f.size).map out = st.text f := by
    apply List.map_congr_left
    intro i hi
    have hi := List.mem_range.mp hi
    calc
      out i = s.lock.cells (f, i) := hcopied ⟨hi, List.not_mem_nil⟩
      _ = st.bytes (f, i) := heq hi
  refine h.quiet trivial not_false (List.Subset.refl _) ?_
  intro g text hmem
  rcases List.mem_append.mp hmem with hold | hnew
  · exact .inl hold
  · cases List.mem_singleton.mp hnew
    exact .inr ⟨st, hst, htext⟩

theorem Inv.step (h : Inv s) (hguard : Guarded s e) (hstep : Steps s e s') :
  Inv s'
  := by
  cases hstep with
  | call f hpc | time f hpc | lost f hpc => exact h.goto trivial not_false
  | same hpc | outdated hpc | retry hpc => exact h.goto trivial not_false
  | spin => exact h
  | won st hpc =>
      refine h.quiet ?_ not_false (List.subset_append_left _ _) (fun _ _ => .inl)
      exact List.mem_append_right _ (List.mem_singleton_self st)
  | copyIn hpc => exact h.copyIn hpc
  | copyOut hpc => exact h.copyOut hpc
  | enter hpc =>
      rw [Guarded, hpc] at hguard
      apply h.enter hpc hguard
  | turn hpc => exact h.turn hpc
  | leave hpc => exact h.leave hpc
  | begin hpc heven =>
      rw [Guarded, hpc] at hguard
      apply h.begin _ heven hguard
  | done hpc hseq =>
      rw [Guarded, hpc] at hguard
      apply h.done hpc hseq hguard

theorem inv_start :
  Inv start
  := by
  constructor
  case odd => exact nofun
  case one => exact nofun
  case settled => exact fun _ hpos => absurd rfl hpos
  case threads => exact fun _ => trivial
  case returned => exact nofun

/-- A string that `strftime` has written is not blank. -/
theorem text_ne_blank (st : Stamp) (f : TextField) :
  st.text f ≠ List.replicate f.size 0
  := by
  intro hblank
  obtain ⟨i, hi, hne⟩ := st.ne_zero f
  apply hne
  have hmem : st.bytes (f, i) ∈ st.text f := List.mem_map_of_mem (List.mem_range.mpr hi)
  rw [hblank] at hmem
  apply List.eq_of_mem_replicate hmem

/-- In every run whose steps meet the condition, every string returned is that of one single
update, and not blank. -/
theorem reads_whole (h : Reaches step Guarded start s) :
  ∀ f text, (f, text) ∈ s.returned →
    (∃ st ∈ s.updates, text = st.text f) ∧ text ≠ List.replicate f.size 0
  := by
  have hinv : Inv s := by
    apply h.invariant inv_start
    intro s s' e hinv hguard hstep
    apply hinv.step hguard (step_cases hstep)
  intro f text hmem
  obtain ⟨st, hst, rfl⟩ := hinv.returned f text hmem
  exact ⟨⟨st, hst, rfl⟩, text_ne_blank st f⟩

/-- `[1970-01-01 23:59:59]` and `1970-01-01`. -/
def lastSecond : Stamp where
  bytes
    | (.datetime, i) => [91, 49, 57, 55, 48, 45, 48, 49, 45, 48, 49, 32, 50, 51, 58, 53, 57, 58,
        53, 57, 93].getD i 0
    | (.date, i) => [49, 57, 55, 48, 45, 48, 49, 45, 48, 49].getD i 0
  ne_zero
    | .datetime => ⟨0, by decide⟩
    | .date => ⟨0, by decide⟩

/-- `[1970-01-02 00:00:00]` and `1970-01-02`. -/
def midnight : Stamp where
  bytes
    | (.datetime, i) => [91, 49, 57, 55, 48, 45, 48, 49, 45, 48, 50, 32, 48, 48, 58, 48, 48, 58,
        48, 48, 93].getD i 0
    | (.date, i) => [49, 57, 55, 48, 45, 48, 49, 45, 48, 50].getD i 0
  ne_zero
    | .datetime => ⟨0, by decide⟩
    | .date => ⟨0, by decide⟩

/-- A thread calls `get_datetime` or `get_date` at the time `now`, up to the start of its update
or of its copy. -/
def calls (t : ℕ) (f : TextField) (now : ℤ) : List TimestampEvent :=
  [.call t f, .time t now, .next t]

/-- A thread copies `n` bytes. -/
def copies (t n : ℕ) : List TimestampEvent := (List.range n).map (.byte t)

/-- A thread updates the cache before midnight.  While it copies the string, another thread updates
the cache after midnight; the copy is repeated, and both threads get the strings of the second
update. -/
theorem reads_whole_two_threads :
  ∃ s, Reaches step Guarded start s
    ∧ s.returned = [(.date, midnight.text .date), (.datetime, midnight.text .datetime)]
    ∧ (∃ st ∈ s.updates, midnight.text .datetime = st.text .datetime)
    ∧ midnight.text .datetime ≠ List.replicate TextField.datetime.size 0
  := by
  obtain ⟨s, hreach, hreturned⟩ : ∃ s, Reaches step Guarded start s
      ∧ s.returned = [(.date, midnight.text .date), (.datetime, midnight.text .datetime)] := by
    apply Reaches.exists_of_follow [calls 0 .datetime 86399, [.exchange 0 lastSecond, .next 0],
      copies 0 24, [.next 0], copies 0 12, [.next 0, .next 0], copies 0 11,
      calls 1 .date 86400, [.exchange 1 midnight, .next 1], copies 1 24, [.next 1], copies 1 12,
      [.next 1, .next 1], copies 1 12, [.next 1], (copies 0 24).drop 11, [.next 0, .next 0],
      copies 0 24, [.next 0]].flatten
    decide +kernel
  have hmem : (.datetime, midnight.text .datetime) ∈ s.returned := by
    rw [hreturned]
    simp
  use s, hreach, hreturned
  apply reads_whole hreach .datetime _ hmem

/-- `[1970-01-02 23:59:59]`, which is no time that ever was. -/
def torn : List UInt8 :=
  [91, 49, 57, 55, 48, 45, 48, 49, 45, 48, 50, 32, 50, 51, 58, 53, 57, 58, 53, 57, 93, 0, 0, 0]

/-- Two threads that update the cache at the same time, before and after midnight, make `seq_`
even again, so that a third gets a mixture of their strings; and a thread that comes between the
exchange of `cached_second_` and the first update gets a blank string. -/
theorem reads_torn_or_blank :
  (∃ s, Reaches step (fun _ _ => True) start s ∧ (.datetime, torn) ∈ s.returned
      ∧ ∀ st ∈ s.updates, torn ≠ st.text .datetime)
    ∧ ∃ s, Reaches step (fun _ _ => True) start s
      ∧ (.datetime, List.replicate TextField.datetime.size 0) ∈ s.returned
  := by
  constructor
  · apply Reaches.exists_of_follow [calls 0 .datetime 86399, [.exchange 0 lastSecond, .next 0],
      calls 1 .datetime 86400, [.exchange 1 midnight, .next 1], copies 0 24, copies 1 11,
      calls 2 .datetime 86400, [.next 2], copies 2 24, [.next 2]].flatten
    decide +kernel
  · apply Reaches.exists_of_follow [calls 0 .datetime 86400, [.exchange 0 midnight],
      calls 1 .datetime 86400, [.next 1], copies 1 24, [.next 1]].flatten
    decide +kernel

end TimestampCache

end Proactor
