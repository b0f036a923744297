import CoordinatorCore.Machine.Survivor
import CoordinatorCore.Machine.Table
import CoordinatorCore.Text.Basic
import Mathlib.Data.Char
import Mathlib.Data.List.Lex
import Mathlib.Data.Prod.Lex

/-!
# Merged persons

A `person_merged` event retires the id of a person in favour of another one, and `resolve_person`
follows these merges to the id that is left. Two machines can close a cycle of merges, each with one
leg; then the edge of the cycle whose event is the last in the order of `read_events` does not
count.

The fuel of `resolveWalk` is more than there are merges, and it never runs out
(`resolvePerson_spec`).
-/

namespace CoordinatorCore

open Chain Relation

namespace Tracker

/-- `(applied_at, observed_at, id)`, as the tuples of these are compared. -/
abbrev SortKey := Text ×ₗ Text ×ₗ Text

/-- The bodies of the events that the registry is folded from. Empty texts stand for fields that
are missing. -/
inductive PersonBody
  | created (personId : Text) (displayName : Option Text)
  | aliasAdded (space : Text) (value : Option Text) (personId : Text)
  | aliasRetracted (space : Text) (value : Option Text)
  | merged (fromId intoId : Text)

/-- `PersonRegistry`. -/
structure PersonRegistry where
  persons : Table Text (Option Text)
  aliases : Table (Text × Text) Text
  merges : Table Text (Text × SortKey)

/-- One round of `fold_person_registry`. -/
def PersonRegistry.fold (g : PersonRegistry) (key : SortKey) : PersonBody → PersonRegistry
  | .created personId displayName =>
    if personId = [] then g else { g with persons := g.persons.set personId displayName }
  | .aliasAdded space value personId =>
    match value with
    | none => g
    | some value =>
      if space = [] ∨ personId = [] then g
      else { g with aliases := g.aliases.set (space, value) personId }
  | .aliasRetracted space value =>
    match value with
    | none => g
    | some value =>
      if space = [] then g
      else { g with aliases := g.aliases.erase (space, value) }
  | .merged fromId intoId =>
    if fromId = [] ∨ intoId = [] then g
    else { g with merges := g.merges.set fromId (intoId, key) }

/-- `fold_person_registry`, from events in the order of `read_events`. -/
def foldPersonRegistry (events : List (SortKey × PersonBody)) : PersonRegistry :=
  events.foldl (fun g e => g.fold e.1 e.2) ⟨∅, ∅, ∅⟩

inductive ResolveFault
  | selfReference
  | unfinished
  deriving DecidableEq

/-- `max` by the sort key: the first of the greatest. -/
def maxEdge : List (Text × SortKey) → Option (Text × SortKey)
  | [] => none
  | e :: es => some (es.foldl (fun best x => if best.2 < x.2 then x else best) e)

/-- The loop of `resolve_person`. -/
def resolveWalk (merges : Table Text (Text × SortKey)) :
    ℕ → List Text → List (Text × SortKey) → Text → Except ResolveFault Text
  | 0, _, _, _ => .error .unfinished
  | n + 1, path, edges, current =>
    match merges.get current with
    | none => .ok current
    | some (into, key) =>
      if into = current then .error .selfReference
      else if into ∈ path then
        let cycle := edges.drop (path.idxOf into) ++ [(current, key)]
        .ok (((maxEdge cycle).map Prod.fst).getD current)
      else resolveWalk merges n (path ++ [into]) (edges ++ [(current, key)]) into

/-- `resolve_person`. -/
def resolvePerson (merges : Table Text (Text × SortKey)) (personId : Text) :
    Except ResolveFault Text :=
  resolveWalk merges (merges.keys.length + 1) [personId] [] personId

/-! ### The walk -/

theorem maxEdge_spec {l : List (Text × SortKey)} (h : l ≠ []) :
    ∃ e ∈ l, maxEdge l = some e ∧ ∀ x ∈ l, x.2 ≤ e.2 := by
  have hfold : ∀ (es : List (Text × SortKey)) (e : Text × SortKey),
      let best := es.foldl (fun best x => if best.2 < x.2 then x else best) e
      (best = e ∨ best ∈ es) ∧ e.2 ≤ best.2 ∧ ∀ x ∈ es, x.2 ≤ best.2 := by
    intro es
    induction es with
    | nil => simp
    | cons x es ih =>
      intro e
      rw [List.foldl_cons]
      obtain ⟨hmem, hle, hall⟩ := ih (if e.2 < x.2 then x else e)
      split_ifs at hmem hle hall ⊢ with hlt
      · refine ⟨.inr ?_, hlt.le.trans hle, List.forall_mem_cons.mpr ⟨hle, hall⟩⟩
        rcases hmem with hmem | hmem
        · rw [hmem]
          exact List.mem_cons_self
        · exact List.mem_cons_of_mem x hmem
      · exact ⟨hmem.imp_right (List.mem_cons_of_mem x), hle,
          List.forall_mem_cons.mpr ⟨(not_lt.mp hlt).trans hle, hall⟩⟩
  cases l with
  | nil => exact absurd rfl h
  | cons e es =>
    obtain ⟨hmem, hle, hall⟩ := hfold es e
    refine ⟨_, ?_, rfl, List.forall_mem_cons.mpr ⟨hle, hall⟩⟩
    rcases hmem with hmem | hmem
    · rw [hmem]
      exact List.mem_cons_self
    · exact List.mem_cons_of_mem e hmem

/-- Whom a person is merged into. -/
def mergedInto (merges : Table Text (Text × SortKey)) (p : Text) : Option Text :=
  (merges.get p).map Prod.fst

/-- When a person was merged. -/
def mergedAt (merges : Table Text (Text × SortKey)) (p : Text) : SortKey :=
  ((merges.get p).map Prod.snd).getD (toLex ([], toLex ([], [])))

/-- No person is merged into itself. -/
def NoSelfMerge (merges : Table Text (Text × SortKey)) : Prop :=
  ∀ p, mergedInto merges p ≠ some p

/-- The walk ends at the survivor. -/
theorem resolveWalk_spec {merges : Table Text (Text × SortKey)} (hself : NoSelfMerge merges)
    (n : ℕ) (front : List Text) (current : Text)
    (hchain : (front ++ [current]).IsChain (Edge (mergedInto merges)))
    (hnodup : (front ++ [current]).Nodup) (hfuel : merges.keys.length < n + front.length) :
    ∃ r, resolveWalk merges n (front ++ [current]) (front.map fun p => (p, mergedAt merges p))
        current = .ok r ∧ Survivor (mergedInto merges) (mergedAt merges) current r := by
  induction n generalizing front current with
  | zero =>
    -- the walk would have left more persons than are merged
    have hsub : front ⊆ merges.keys := by
      intro p hp
      obtain ⟨s, t, rfl⟩ := List.append_of_mem hp
      rw [List.append_assoc, List.cons_append] at hchain
      obtain ⟨q, hq⟩ : ∃ q, (t ++ [current]).head? = some q :=
        ⟨_, List.head?_eq_some_head (by simp)⟩
      obtain ⟨v, hv, -⟩ := Option.map_eq_some_iff.mp
        ((List.isChain_cons.mp hchain.right_of_append).1 q hq)
      exact Table.mem_keys_iff.mpr ⟨v, hv⟩
    have := (List.subperm_of_subset (List.nodup_append.mp hnodup).1 hsub).length_le
    omega
  | succ n ih =>
    rw [resolveWalk]
    cases hget : merges.get current with
    | none =>
      refine ⟨current, rfl, .refl, fun b hb => ?_⟩
      rw [Edge, mergedInto, hget] at hb
      cases hb
    | some entry =>
      obtain ⟨into, key⟩ := entry
      have hedge : Edge (mergedInto merges) current into := by rw [Edge, mergedInto, hget]; rfl
      have hkey : mergedAt merges current = key := by rw [mergedAt, hget]; rfl
      have hne : into ≠ current := by
        rintro rfl
        exact hself into hedge
      dsimp only
      rw [if_neg hne]
      split_ifs with hmem
      · obtain ⟨s, t, rfl⟩ := List.append_of_mem
          ((List.mem_append.mp hmem).resolve_right (by simpa using hne))
        rw [List.append_assoc, List.cons_append] at hchain hnodup ⊢
        have hloop : Loop (mergedInto merges) (into :: t) into current :=
          ⟨hchain.right_of_append, rfl, hedge⟩
        have hdrop : ((s ++ into :: t).map fun p => (p, mergedAt merges p)).drop
            ((s ++ into :: (t ++ [current])).idxOf into) ++ [(current, key)] =
              ((into :: t) ++ [current]).map fun p => (p, mergedAt merges p) := by
          have hs : into ∉ s := fun hin =>
            (List.nodup_append.mp hnodup).2.2 into hin into List.mem_cons_self rfl
          rw [List.idxOf_append_of_notMem hs, List.idxOf_cons_self, Nat.add_zero, ← List.map_drop,
            List.drop_left, List.map_append, List.map_singleton, hkey]
        obtain ⟨e, he, hmax, hall⟩ := maxEdge_spec (l := ((into :: t) ++ [current]).map
          fun p => (p, mergedAt merges p)) (by simp)
        obtain ⟨r, hr, rfl⟩ := List.mem_map.mp he
        refine ⟨r, by rw [hdrop, hmax]; rfl, hloop.survivor hr (fun x hx => ?_) (by simp)⟩
        exact hall _ (List.mem_map_of_mem hx)
      · have hnext := ih (front ++ [current]) into ?_ ?_ ?_
        · obtain ⟨r, hr, hsurvivor⟩ := hnext
          refine ⟨r, ?_, .head hedge hsurvivor.reaches, hsurvivor.last⟩
          rw [List.map_append, List.map_singleton, hkey] at hr
          exact hr
        · refine hchain.append (List.isChain_singleton into) fun x hx y hy => ?_
          rw [List.getLast?_append_of_ne_nil _ (by simp)] at hx
          cases hx
          cases hy
          exact hedge
        · exact List.nodup_append.mpr ⟨hnodup, List.nodup_singleton into, fun x hx y hy heq => by
            rw [List.mem_singleton.mp hy] at heq
            exact hmem (heq ▸ hx)⟩
        · rw [List.length_append, List.length_singleton]
          omega

/-- `resolve_person` ends, at the survivor. -/
theorem resolvePerson_spec {merges : Table Text (Text × SortKey)} (hself : NoSelfMerge merges)
    (p : Text) : ∃ r, resolvePerson merges p = .ok r ∧
      Survivor (mergedInto merges) (mergedAt merges) p r :=
  resolveWalk_spec hself _ [] p (List.isChain_singleton p) (List.nodup_singleton p)
    (by rw [List.length_nil]; omega)

/-! ### The registry of the events -/

theorem mem_of_get_fold {events : List (SortKey × PersonBody)} (g : PersonRegistry) {p into : Text}
    {key : SortKey} (h : (events.foldl (fun g e => g.fold e.1 e.2) g).merges.get p =
      some (into, key)) :
    g.merges.get p = some (into, key) ∨ (key, .merged p into) ∈ events := by
  induction events generalizing g with
  | nil => exact .inl h
  | cons e events ih =>
    rw [List.foldl_cons] at h
    rcases ih _ h with hget | hmem
    · obtain ⟨k, body⟩ := e
      cases body with
      | merged fromId intoId =>
        rw [PersonRegistry.fold] at hget
        split_ifs at hget with hnil
        · exact .inl hget
        · rw [Table.get_set] at hget
          split_ifs at hget with heq
          · cases hget
            exact .inr (heq ▸ List.mem_cons_self)
          · exact .inl hget
      | created personId displayName =>
        rw [PersonRegistry.fold] at hget
        split_ifs at hget <;> exact .inl hget
      | aliasAdded space value personId =>
        refine .inl ?_
        cases value with
        | none => exact hget
        | some value =>
          rw [PersonRegistry.fold] at hget
          split_ifs at hget <;> exact hget
      | aliasRetracted space value =>
        refine .inl ?_
        cases value with
        | none => exact hget
        | some value =>
          rw [PersonRegistry.fold] at hget
          split_ifs at hget <;> exact hget
    · exact .inr (List.mem_cons_of_mem e hmem)

/-- Every person resolves, to an id that resolves to itself, and two persons resolve to the same id
exactly if merges connect them, whether or not machines have closed cycles of merges. -/
theorem resolvePerson_eq_iff {events : List (SortKey × PersonBody)}
    (hkeys : (events.map Prod.fst).Nodup) (hself : ∀ key p, (key, .merged p p) ∉ events) :
    ∃ survivor : Text → Text,
      (∀ p, resolvePerson (foldPersonRegistry events).merges p = .ok (survivor p)) ∧
      (∀ p, survivor (survivor p) = survivor p) ∧
      ∀ p q, survivor p = survivor q ↔
        EqvGen (fun a b => mergedInto (foldPersonRegistry events).merges a = some b) p q := by
  set merges := (foldPersonRegistry events).merges with hmerges
  have hevent : ∀ p into key, merges.get p = some (into, key) → (key, .merged p into) ∈ events := by
    intro p into key h
    rcases mem_of_get_fold _ h with h | h
    · cases h
    · exact h
  have hno : NoSelfMerge merges := by
    intro p h
    obtain ⟨⟨into, key⟩, hget, rfl⟩ := Option.map_eq_some_iff.mp h
    exact hself key _ (hevent _ _ key hget)
  -- no two persons are merged by one event
  have hinj : ∀ a b, mergedInto merges a ≠ none → mergedInto merges b ≠ none →
      mergedAt merges a = mergedAt merges b → a = b := by
    intro a b ha hb heq
    obtain ⟨_, hinto⟩ := Option.ne_none_iff_exists'.mp ha
    obtain ⟨⟨into, key⟩, hget, -⟩ := Option.map_eq_some_iff.mp hinto
    obtain ⟨_, hinto'⟩ := Option.ne_none_iff_exists'.mp hb
    obtain ⟨⟨into', key'⟩, hget', -⟩ := Option.map_eq_some_iff.mp hinto'
    rw [mergedAt, mergedAt, hget, hget'] at heq
    have hsame := List.inj_on_of_nodup_map hkeys (hevent _ _ _ hget) (hevent _ _ _ hget') heq
    rw [Prod.mk.injEq, PersonBody.merged.injEq] at hsame
    exact hsame.2.1
  choose survivor hresolve hsurvivor using resolvePerson_spec hno
  refine ⟨survivor, hresolve, fun p => ?_,
    fun p q => eq_iff_eqvGen hinj (hsurvivor p) (hsurvivor q)⟩
  exact (hsurvivor (survivor p)).unique hinj (hsurvivor p).self

/-- Three persons are merged in a circle, and a fourth one into it. -/
def circle : List (SortKey × PersonBody) :=
  [(toLex (['1'], toLex (['1'], ['e'])), .merged ['a'] ['b']),
    (toLex (['2'], toLex (['2'], ['f'])), .merged ['b'] ['c']),
    (toLex (['3'], toLex (['3'], ['g'])), .merged ['c'] ['a']),
    (toLex (['4'], toLex (['4'], ['h'])), .merged ['d'] ['a'])]

theorem resolvePerson_eq_iff_circle :
    ∃ survivor : Text → Text,
      (∀ p, resolvePerson (foldPersonRegistry circle).merges p = .ok (survivor p)) ∧
      (∀ p, survivor (survivor p) = survivor p) ∧
      ∀ p q, survivor p = survivor q ↔
        EqvGen (fun a b => mergedInto (foldPersonRegistry circle).merges a = some b) p q :=
  resolvePerson_eq_iff (by decide) (by intro key p h; simp [circle] at h; grind)

example : ['a', 'b', 'c', 'd'].map (fun p => resolvePerson (foldPersonRegistry circle).merges [p]) =
    List.replicate 4 (.ok ['c']) := by decide

end Tracker

end CoordinatorCore
