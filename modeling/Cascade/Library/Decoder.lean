import Mathlib.Data.List.Basic

/-!
# Incremental decoders

A decoder takes messages from the front of a buffer to which bytes are added as they arrive. What
it takes does not depend on the bytes behind: more bytes neither change a message that is complete
nor mend an error. Then it does not matter in which chunks the bytes arrive
(`Decoder.feedAll_eq`).
-/

variable {α β ε : Type*}

/-- A decoder, which takes one message from the front of a buffer if there is a complete one. -/
structure Decoder (α β ε : Type*) where
  extract : List α → Except ε (Option (β × List α))
  /-- A message takes something from the buffer. -/
  shrinks : ∀ {xs b rest}, extract xs = .ok (some (b, rest)) → rest.length < xs.length
  /-- More bytes do not change a message. -/
  extract_append : ∀ {xs b rest} ys, extract xs = .ok (some (b, rest)) →
    extract (xs ++ ys) = .ok (some (b, rest ++ ys))
  /-- More bytes do not mend an error. -/
  error_append : ∀ {xs e} ys, extract xs = .error e → extract (xs ++ ys) = .error e

namespace Decoder

variable (d : Decoder α β ε)

/-- Take all complete messages from a buffer: the messages, and what is left or the error. -/
def drain (buffer : List α) : List β × Except ε (List α) :=
  match _h : d.extract buffer with
  | .error e => ([], .error e)
  | .ok none => ([], .ok buffer)
  | .ok (some (b, rest)) =>
      let r := drain rest
      (b :: r.1, r.2)
termination_by buffer.length
decreasing_by exact d.shrinks _h

variable {d} {buffer rest : List α} {b : β} {e : ε}

theorem drain_error (h : d.extract buffer = .error e) :
  d.drain buffer = ([], .error e)
  := by
  rw [drain]
  split <;> simp_all

theorem drain_none (h : d.extract buffer = .ok none) :
  d.drain buffer = ([], .ok buffer)
  := by
  rw [drain]
  split <;> simp_all

theorem drain_some (h : d.extract buffer = .ok (some (b, rest))) :
  d.drain buffer = (b :: (d.drain rest).1, (d.drain rest).2)
  := by
  rw [drain]
  split <;> simp_all

variable (d)

/-- A chunk arrives. After an error nothing is decoded any more. -/
def feed (state : Except ε (List α)) (chunk : List α) : List β × Except ε (List α) :=
  match state with
  | .error e => ([], .error e)
  | .ok buffer => d.drain (buffer ++ chunk)

/-- Chunks arrive one after the other. -/
def feedAll (state : Except ε (List α)) : List (List α) → List β × Except ε (List α)
  | [] => ([], state)
  | chunk :: chunks =>
      let r := d.feed state chunk
      let rs := feedAll r.2 chunks
      (r.1 ++ rs.1, rs.2)

/-- Bytes that arrive later are decoded after what was left. -/
theorem drain_append (xs ys : List α) :
  d.drain (xs ++ ys)
    = ((d.drain xs).1 ++ (d.feed (d.drain xs).2 ys).1, (d.feed (d.drain xs).2 ys).2)
  := by
  -- The induction follows the messages that are complete in `xs`.
  fun_induction d.drain xs with
  | case1 xs e h => rw [drain_error (d.error_append ys h), feed, List.nil_append]
  | case2 xs h => rw [feed, List.nil_append]
  | case3 xs b rest h r ih =>
      rw [drain_some (d.extract_append ys h), ih]
      rfl

/-- More bytes give more messages. -/
theorem drain_fst_of_isPrefix {xs ys : List α} (h : xs <+: ys) :
  (d.drain xs).1 <+: (d.drain ys).1
  := by
  obtain ⟨more, rfl⟩ := h
  rw [drain_append]
  exact ⟨_, rfl⟩

theorem feedAll_error (e : ε) (chunks : List (List α)) :
  d.feedAll (.error e) chunks = ([], .error e)
  := by
  induction chunks with
  | nil => rfl
  | cons chunk chunks ih =>
      rw [feedAll, feed, ih]
      rfl

/-- There is no complete message in what is left. -/
theorem extract_of_drain {xs rest : List α} (h : (d.drain xs).2 = .ok rest) :
  d.extract rest = .ok none
  := by
  fun_induction d.drain xs with
  | case1 xs e he => cases h
  | case2 xs hnone =>
      obtain rfl := Except.ok.inj h
      exact hnone
  | case3 xs b tail hsome r ih => apply ih h

/-- The messages, and what is left, are those of the bytes that have arrived. -/
theorem feedAll_eq {buffer : List α} (h : d.extract buffer = .ok none)
    (chunks : List (List α)) :
  d.feedAll (.ok buffer) chunks = d.drain (buffer ++ chunks.flatten)
  := by
  induction chunks generalizing buffer with
  | nil => rw [List.flatten_nil, List.append_nil, drain_none h, feedAll]
  | cons chunk chunks ih =>
      rw [List.flatten_cons, ← List.append_assoc, drain_append, feedAll, feed]
      cases hrest : (d.drain (buffer ++ chunk)).2 with
      | error e => rw [feedAll_error, feed]
      | ok rest => rw [ih (d.extract_of_drain hrest), feed]

end Decoder
