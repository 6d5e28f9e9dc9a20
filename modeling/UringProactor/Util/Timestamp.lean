import UringProactor.Prelude.Run
import UringProactor.Prelude.SeqLock

/-!
# The timestamp cache

`TimestampCache` keeps the formatted time of the current second.  Any number of threads call
`get_datetime` and `get_date`; the first that finds the second outdated formats the new strings
and copies them into the cache under the sequence counter `seq_`, and every thread copies its
string out of the cache under the same counter.

A step is one access to what the threads share: an atomic operation, or the copy of one byte.
`memcpy` may copy the bytes in any order.  The cache also records the strings that were
computed and those that were returned, and a copy remembers how often `seq_` had been
incremented when it began; no step reads these.
-/

namespace Proactor

/-- The two strings of the cache, `datetime_str_` and `date_str_`. -/
inductive TextField where
  | datetime
  | date
deriving DecidableEq

/-- The sizes of the strings. -/
def TextField.size : TextField → ℕ
  | .datetime => 24
  | .date => 12

/-- What `strftime` leaves in the two buffers `dt` and `d` of `maybe_update`, by their bytes.
Neither is blank. -/
structure Stamp where
  bytes : TextField × ℕ → UInt8
  ne_zero : ∀ f : TextField, ∃ i < f.size, bytes (f, i) ≠ 0

/-- The bytes of a string. -/
def Stamp.text (st : Stamp) (f : TextField) : List UInt8 :=
  (List.range f.size).map (fun i => st.bytes (f, i))

/-- Where a thread is: outside, or before the step the name tells, in `get_datetime` or
`get_date`.  `left` lists the bytes that are still to be copied. -/
inductive TimestampPc where
  | idle
  | time (f : TextField)
  | load (f : TextField) (now : ℤ)
  | exchange (f : TextField) (now expected : ℤ)
  | enter (f : TextField) (st : Stamp)
  | copyIn (f : TextField) (st : Stamp) (g : TextField) (left : List ℕ)
  | loadSeq (f : TextField)
  | copyOut (f : TextField) (s1 begun : ℕ) (left : List ℕ) (out : ℕ → UInt8)

/-- The cache and the threads that use it. -/
structure TimestampCache where
  /-- `cached_second_`. -/
  cachedSecond : ℤ
  /-- `seq_`, by the number of its increments, and the bytes of the strings. -/
  lock : SeqLock (TextField × ℕ) UInt8
  threads : ℕ → TimestampPc
  /-- The strings computed by the calls of `maybe_update`. -/
  updates : List Stamp
  /-- The strings returned. -/
  returned : List (TextField × List UInt8)

/-- An event: a call; `time` returns; the exchange of `cached_second_`, with the strings that
`strftime` gives if it succeeds; the copy of a byte; or any other step of a thread. -/
inductive TimestampEvent where
  | call (t : ℕ) (f : TextField)
  | time (t : ℕ) (now : ℤ)
  | exchange (t : ℕ) (st : Stamp)
  | byte (t i : ℕ)
  | next (t : ℕ)

namespace TimestampCache

/-- The value of `seq_`, an `unsigned`. -/
def seq (s : TimestampCache) : ℕ := s.lock.count % 2 ^ 32

/-- The thread `t` goes on at `pc`. -/
def goto (s : TimestampCache) (t : ℕ) (pc : TimestampPc) : TimestampCache :=
  { s with threads := Function.update s.threads t pc }

/-- The cache when it is constructed. -/
def start : TimestampCache where
  cachedSecond := 0
  lock := ⟨0, fun _ => 0⟩
  threads _ := .idle
  updates := []
  returned := []

/-- The copy of the byte `i`. -/
def copy (s : TimestampCache) (t i : ℕ) : Option TimestampCache :=
  match s.threads t with
  | .copyIn f st g left =>
      if i ∈ left then
        some { s.goto t (.copyIn f st g (left.erase i)) with
          lock := s.lock.store (g, i) (st.bytes (g, i)) }
      else
        none
  | .copyOut f s1 begun left out =>
      if i ∈ left then
        some (s.goto t (.copyOut f s1 begun (left.erase i)
          (Function.update out i (s.lock.cells (f, i)))))
      else
        none
  | _ => none

/-- The other steps of `maybe_update`, and of the loops of `get_datetime` and `get_date`. -/
def next (s : TimestampCache) (t : ℕ) : Option TimestampCache :=
  match s.threads t with
  | .load f now =>
      if now = s.cachedSecond then
        some (s.goto t (.loadSeq f))
      else
        some (s.goto t (.exchange f now s.cachedSecond))
  | .enter f st =>
      some { s.goto t (.copyIn f st .datetime (List.range TextField.datetime.size)) with
        lock := s.lock.bump }
  | .copyIn f st .datetime [] =>
      some (s.goto t (.copyIn f st .date (List.range TextField.date.size)))
  | .copyIn f _ .date [] => some { s.goto t (.loadSeq f) with lock := s.lock.bump }
  | .loadSeq f =>
      if s.seq % 2 = 1 then
        some s
      else
        some (s.goto t (.copyOut f s.seq s.lock.count (List.range f.size) (fun _ => 0)))
  | .copyOut f s1 _ [] out =>
      if s1 = s.seq then
        some { s.goto t .idle with
          returned := s.returned ++ [(f, (List.range f.size).map out)] }
      else
        some (s.goto t (.loadSeq f))
  | _ => none

/-- One event; `none` when it cannot happen. -/
def step (s : TimestampCache) : TimestampEvent → Option TimestampCache
  | .call t f =>
      match s.threads t with
      | .idle => some (s.goto t (.time f))
      | _ => none
  | .time t now =>
      match s.threads t with
      | .time f => some (s.goto t (.load f now))
      | _ => none
  | .exchange t st =>
      match s.threads t with
      | .exchange f now expected =>
          if s.cachedSecond = expected then
            some { s.goto t (.enter f st) with
              cachedSecond := now
              updates := s.updates ++ [st] }
          else
            some (s.goto t (.loadSeq f))
      | _ => none
  | .byte t i => s.copy t i
  | .next t => s.next t

end TimestampCache

end Proactor
