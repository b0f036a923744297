import Mathlib.Data.List.Induction
import Mathlib.Data.List.Infix
import Mathlib.Tactic.SplitIfs

/-!
# Streams that are read in pieces

A coder writes a message as a stream that ends itself, and a reader is fed the stream in pieces, of
any size and with anything behind the stream. `Inverts` says of a message that however its stream is
cut the reader ends with the stream and not before, and gives the message. The reader that knows
finitely many messages is one (`known_inverts`), where none of their streams begins another.
-/

namespace Machine

/-- A coder, and a reader with its states; a piece that the reader refuses has no next state. -/
structure Codec (α ζ : Type*) where
  compress : List α → List α
  start : ζ
  decompress : ζ → List α → Option (ζ × List α)
  eof : ζ → Bool

namespace Codec

variable {α ζ : Type*} (Z : Codec α ζ)

/-- The pieces are fed one after the other, and what comes out is joined. -/
def feedAll : ζ → List (List α) → Option (ζ × List α)
  | z, [] => some (z, [])
  | z, c :: cs =>
    (Z.decompress z c).bind fun r => (feedAll r.1 cs).map fun r' => (r'.1, r.2 ++ r'.2)

/-- However the stream of the message is cut, the reader ends with it, and gives the message. -/
structure Inverts (p : List α) : Prop where
  nonempty : Z.compress p ≠ []
  reads : ∀ (chunks : List (List α)) (rest : List α), chunks.flatten <+: Z.compress p ++ rest →
    ∃ z out, Z.feedAll Z.start chunks = some (z, out) ∧
      (Z.eof z = true ↔ (Z.compress p).length ≤ chunks.flatten.length) ∧ (Z.eof z = true → out = p)

theorem feedAll_append (z : ζ) (cs : List (List α)) (c : List α) :
    Z.feedAll z (cs ++ [c]) = (Z.feedAll z cs).bind fun r =>
      (Z.decompress r.1 c).map fun r' => (r'.1, r.2 ++ r'.2) := by
  induction cs generalizing z with
  | nil =>
    rw [List.nil_append, feedAll, feedAll, Option.bind_some, Option.map_eq_bind]
    refine congrArg _ (funext fun r => ?_)
    rw [feedAll, Option.map_some, List.append_nil]
    rfl
  | cons d cs ih =>
    rw [List.cons_append, feedAll, feedAll]
    rcases Z.decompress z d with _ | ⟨z', out⟩
    · rfl
    · rw [Option.bind_some, Option.bind_some, ih]
      rcases Z.feedAll z' cs with _ | ⟨z'', out'⟩
      · rfl
      · rw [Option.map_some, Option.bind_some, Option.bind_some]
        rcases Z.decompress z'' c with _ | ⟨z₃, out₃⟩
        · rfl
        · simp only [Option.map_some, List.append_assoc]

end Codec

section Known

variable {α : Type*} [DecidableEq α] (compress : List α → List α) (messages : List (List α))

/-- The message whose stream has been fed. -/
def ended (fed : List α) : Option (List α) := messages.find? fun p => compress p <+: fed

/-- The reader that knows these messages: its state is what it was fed. -/
def knownCodec : Codec α (List α) where
  compress := compress
  start := []
  decompress fed c := some (fed ++ c,
    if (ended compress messages fed).isSome then []
    else (ended compress messages (fed ++ c)).getD [])
  eof fed := (ended compress messages fed).isSome

variable {compress messages}

/-- A message has ended when its whole stream was fed. -/
theorem ended_eq {p : List α} (hp : p ∈ messages)
    (hfree : ∀ q ∈ messages, q ≠ p → ¬ compress q <+: compress p ∧ ¬ compress p <+: compress q)
    {fed rest : List α} (hfed : fed <+: compress p ++ rest) :
    ended compress messages fed =
      if (compress p).length ≤ fed.length then some p else none := by
  have hother : ∀ q ∈ messages, compress q <+: fed → q = p := by
    intro q hq hpre
    by_contra hne
    obtain ⟨h1, h2⟩ := hfree q hq hne
    rcases List.prefix_or_prefix_of_prefix (hpre.trans hfed) (List.prefix_append _ rest) with h | h
    · exact h1 h
    · exact h2 h
  rw [ended]
  split_ifs with hle
  · have hpre : compress p <+: fed :=
      List.prefix_of_prefix_length_le (List.prefix_append _ rest) hfed hle
    rcases hfind : messages.find? fun p => compress p <+: fed with _ | q
    · exact absurd hpre (by simpa using List.find?_eq_none.mp hfind p hp)
    · rw [hother q (List.mem_of_find?_eq_some hfind) (by simpa using List.find?_some hfind)]
  · rw [List.find?_eq_none]
    intro q hq hpre
    have hpre : compress q <+: fed := by simpa using hpre
    rw [hother q hq hpre] at hpre
    exact hle hpre.length_le

/-- What was fed is the state, and the message comes out at the end of its stream. -/
theorem feedAll_known {p : List α} (hp : p ∈ messages) (hne : compress p ≠ [])
    (hfree : ∀ q ∈ messages, q ≠ p → ¬ compress q <+: compress p ∧ ¬ compress p <+: compress q)
    {chunks : List (List α)} {rest : List α} (hchunks : chunks.flatten <+: compress p ++ rest) :
    (knownCodec compress messages).feedAll [] chunks = some (chunks.flatten,
      if (compress p).length ≤ chunks.flatten.length then p else []) := by
  induction chunks using List.reverseRecOn with
  | nil =>
    have hpos : ¬ (compress p).length ≤ 0 := by simpa using hne
    rw [List.flatten_nil, List.length_nil, if_neg hpos]
    rfl
  | append_singleton chunks c ih =>
    rw [List.flatten_append, List.flatten_singleton] at hchunks ⊢
    have hinit : chunks.flatten <+: compress p ++ rest := (List.prefix_append _ c).trans hchunks
    rw [Codec.feedAll_append, ih hinit, Option.bind_some, knownCodec]
    dsimp only
    rw [ended_eq hp hfree hinit, ended_eq hp hfree hchunks, Option.map_some, List.length_append]
    refine congrArg some (Prod.ext rfl ?_)
    dsimp only
    generalize chunks.flatten.length = n
    by_cases h : (compress p).length ≤ n
    · have h' : (compress p).length ≤ n + c.length := by omega
      simp [h, h']
    · by_cases h' : (compress p).length ≤ n + c.length <;> simp [h, h']

/-- The reader that knows some messages reads each of them, where no stream begins another. -/
theorem known_inverts {p : List α} (hp : p ∈ messages) (hne : compress p ≠ [])
    (hfree : ∀ q ∈ messages, q ≠ p → ¬ compress q <+: compress p ∧ ¬ compress p <+: compress q) :
    (knownCodec compress messages).Inverts p := by
  refine ⟨hne, fun chunks rest hchunks => ?_⟩
  refine ⟨_, _, feedAll_known hp hne hfree hchunks, ?_, fun heof => ?_⟩
  · change (ended compress messages chunks.flatten).isSome = true ↔ _
    rw [ended_eq hp hfree hchunks]
    split_ifs with hle
    · exact iff_of_true rfl hle
    · exact iff_of_false nofun hle
  · change (ended compress messages chunks.flatten).isSome = true at heof
    rw [ended_eq hp hfree hchunks] at heof
    split_ifs at heof with hle
    · exact if_pos hle
    · cases heof

end Known

end Machine
