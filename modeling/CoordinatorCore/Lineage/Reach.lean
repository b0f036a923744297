import CoordinatorCore.Lineage.Walk

/-!
# What the walk finds and what it reports

Two questions about `walk_forward`. Which paths does it list, and in which order
(`walkForward_reaches`): the ones reached through open gates, in depth-first preorder. And does its
status tell of a cycle whenever there is one (`reports_iff`): the status is a single variable that
every finding overwrites, so a dangling reference of a record entered behind the last back edge
hides the cycle, and nothing else does.
-/

namespace CoordinatorCore

open Text DepthFirst Machine

namespace Lineage

/-! ### Reachability -/

/-- Every walk ends, with the paths reached from the start through open gates, each listed once
and in depth-first preorder along the listed order of the edges. -/
theorem walkForward_reaches (R : Records) (w : WalkArgs) (absStart : Path) :
    ∃ r n, (∀ m, n ≤ m → walkForward R w absStart m = some r) ∧
      r.orderedPaths.Nodup ∧
      (∀ p, p ∈ r.orderedPaths ↔ (lineage R w).Reaches absStart p) ∧
      (∀ o, Preorder (lineage R w) [] [absStart] o ↔ o = r.orderedPaths) := by
  obtain ⟨b, t, h, n, hn⟩ := exists_walkForward R w absStart
  have hpre : Preorder (lineage R w) [] [absStart] (entered t) := h.preorder [] (by simp)
  refine ⟨_, n, hn, h.nodup, fun p => mem_entered_iff h, fun o => ⟨fun ho => ho.unique hpre, ?_⟩⟩
  rintro rfl
  exact hpre

/-! ### The status -/

section

variable (R : Records) (w : WalkArgs) (absStart : Path)

/-- Some reached record has an edge that does not resolve. -/
def DanglingFrom : Prop :=
  ∃ p, (lineage R w).Reaches absStart p ∧ dangling w (R.readMeta p) = true

/-- The status tells of a cycle when one is reached, else of a dangling edge when one is, and else
of nothing. -/
structure Reports (status : Terminated) : Prop where
  cycle : (lineage R w).CycleFrom absStart → status = .lineageCycle
  missing : ¬ (lineage R w).CycleFrom absStart → DanglingFrom R w absStart →
    status = .missingLink
  clean : ¬ (lineage R w).CycleFrom absStart → ¬ DanglingFrom R w absStart → status = .no

/-- In the depth-first search from the start no record with a dangling edge is entered behind the
last back edge. -/
def CycleFoundLast : Prop :=
  ∃ b t, Explore (lineage R w) [] [] [absStart] b t ∧ ∃ t₁ a t₂, t = t₁ ++ .back a :: t₂ ∧
    ∀ p, .enter p ∈ t₂ → dangling w (R.readMeta p) = false

end

section

variable {R : Records} {w : WalkArgs} {absStart : Path}

private theorem statusAfter_of_clean {status : Terminated} {t : List (Event Path)}
    (hn : ∀ a, .back a ∉ t) (hd : ∀ p, .enter p ∈ t → dangling w (R.readMeta p) = false) :
    statusAfter R w status t = status := by
  induction t generalizing status with
  | nil => rfl
  | cons e t ih =>
    have hn' : ∀ a, .back a ∉ t := fun a ha => hn a (List.mem_cons_of_mem _ ha)
    have hd' : ∀ p, .enter p ∈ t → dangling w (R.readMeta p) = false :=
      fun p hp => hd p (List.mem_cons_of_mem _ hp)
    cases e with
    | enter p =>
      rw [statusAfter, hd p (List.mem_cons_self ..)]
      exact ih hn' hd'
    | back a => exact absurd (List.mem_cons_self ..) (hn a)

/-- The last finding of a trace, if it has any: a back edge behind which nothing dangles, or a
record that dangles behind which no back edge is met. -/
private theorem exists_last_finding (R : Records) (w : WalkArgs) (t : List (Event Path)) :
    ((∀ a, .back a ∉ t) ∧ ∀ p, .enter p ∈ t → dangling w (R.readMeta p) = false) ∨
      (∃ t₁ a t₂, t = t₁ ++ .back a :: t₂ ∧
        (∀ c, .back c ∉ t₂) ∧ ∀ p, .enter p ∈ t₂ → dangling w (R.readMeta p) = false) ∨
      (∃ t₁ q t₂, t = t₁ ++ .enter q :: t₂ ∧ dangling w (R.readMeta q) = true ∧
        (∀ c, .back c ∉ t₂) ∧ ∀ p, .enter p ∈ t₂ → dangling w (R.readMeta p) = false) := by
  induction t with
  | nil => exact Or.inl ⟨fun _ h => absurd h List.not_mem_nil, fun _ h => absurd h List.not_mem_nil⟩
  | cons e t ih =>
    rcases ih with ⟨hn, hd⟩ | ⟨t₁, a, t₂, rfl, hlast⟩ | ⟨t₁, q, t₂, rfl, hlast⟩
    · cases e with
      | back a => exact Or.inr (Or.inl ⟨[], a, t, rfl, hn, hd⟩)
      | enter q =>
        by_cases hq : dangling w (R.readMeta q) = true
        · exact Or.inr (Or.inr ⟨[], q, t, rfl, hq, hn, hd⟩)
        · refine Or.inl ⟨fun a ha => ?_, fun p hp => ?_⟩
          · exact hn a (by simpa using ha)
          · rcases List.mem_cons.mp hp with heq | hp
            · cases heq
              simpa using hq
            · exact hd p hp
    · exact Or.inr (Or.inl ⟨e :: t₁, a, t₂, rfl, hlast⟩)
    · exact Or.inr (Or.inr ⟨e :: t₁, q, t₂, rfl, hlast⟩)

private theorem statusAfter_back {t₁ t₂ : List (Event Path)} {a : Path}
    (hn : ∀ c, .back c ∉ t₂) (hd : ∀ p, .enter p ∈ t₂ → dangling w (R.readMeta p) = false) :
    statusAfter R w .no (t₁ ++ .back a :: t₂) = .lineageCycle := by
  rw [statusAfter_append, statusAfter, statusAfter_of_clean hn hd]

private theorem statusAfter_dangling {t₁ t₂ : List (Event Path)} {q : Path}
    (hq : dangling w (R.readMeta q) = true) (hn : ∀ c, .back c ∉ t₂)
    (hd : ∀ p, .enter p ∈ t₂ → dangling w (R.readMeta p) = false) :
    statusAfter R w .no (t₁ ++ .enter q :: t₂) = .missingLink := by
  rw [statusAfter_append, statusAfter, hq]
  exact statusAfter_of_clean hn hd

/-- The status is `lineage-cycle` exactly when the last finding is a back edge. -/
private theorem status_lineageCycle_iff (t : List (Event Path)) :
    statusAfter R w .no t = .lineageCycle ↔ ∃ t₁ a t₂, t = t₁ ++ .back a :: t₂ ∧
      ∀ p, .enter p ∈ t₂ → dangling w (R.readMeta p) = false := by
  constructor
  · intro h
    rcases exists_last_finding R w t with ⟨hn, hd⟩ | ⟨t₁, a, t₂, ht, -, hd⟩ |
      ⟨t₁, q, t₂, rfl, hq, hn, hd⟩
    · rw [statusAfter_of_clean hn hd] at h
      cases h
    · exact ⟨t₁, a, t₂, ht, hd⟩
    · rw [statusAfter_dangling hq hn hd] at h
      cases h
  · rintro ⟨t₁, a, t₂, rfl, hd⟩
    rw [statusAfter_append, statusAfter]
    -- behind the back edge only further back edges can change the status
    clear t₁
    induction t₂ with
    | nil => rfl
    | cons e t ih =>
      have hd' : ∀ p, .enter p ∈ t → dangling w (R.readMeta p) = false :=
        fun p hp => hd p (List.mem_cons_of_mem _ hp)
      cases e with
      | enter p =>
        rw [statusAfter, hd p (List.mem_cons_self ..)]
        exact ih hd'
      | back c => exact ih hd'

/-- Without a cycle the status tells what dangles. -/
private theorem status_of_acyclic {b : List Path} {t : List (Event Path)}
    (h : Explore (lineage R w) [] [] [absStart] b t)
    (hc : ¬ (lineage R w).CycleFrom absStart) :
    (DanglingFrom R w absStart → statusAfter R w .no t = .missingLink) ∧
      (¬ DanglingFrom R w absStart → statusAfter R w .no t = .no) := by
  have hn : ∀ a, .back a ∉ t := fun a ha => hc ((exists_back_iff h).mp ⟨a, ha⟩)
  rcases exists_last_finding R w t with ⟨-, hd⟩ | ⟨t₁, a, t₂, rfl, -⟩ |
    ⟨t₁, q, t₂, rfl, hq, hn', hd⟩
  · refine ⟨?_, fun _ => statusAfter_of_clean hn hd⟩
    rintro ⟨p, hp, hdp⟩
    rw [hd p (mem_entered.mp ((mem_entered_iff h).mpr hp))] at hdp
    cases hdp
  · exact absurd (List.mem_append_right _ (List.mem_cons_self ..)) (hn a)
  · refine ⟨fun _ => statusAfter_dangling hq hn' hd, fun hno => absurd ⟨q, ?_, hq⟩ hno⟩
    exact (mem_entered_iff h).mp (mem_entered.mpr
      (List.mem_append_right _ (List.mem_cons_self ..)))

end

/-- The status of the walk is right exactly when no cycle is reached, or no record with a dangling
edge is entered behind the last back edge. -/
theorem reports_iff (R : Records) (w : WalkArgs) (absStart : Path) :
    ∃ r n, (∀ m, n ≤ m → walkForward R w absStart m = some r) ∧
      (Reports R w absStart r.terminatedEarly ↔
        (¬ (lineage R w).CycleFrom absStart ∨ CycleFoundLast R w absStart)) := by
  obtain ⟨b, t, h, n, hn⟩ := exists_walkForward R w absStart
  refine ⟨_, n, hn, ?_⟩
  constructor
  · intro hr
    by_cases hc : (lineage R w).CycleFrom absStart
    · exact Or.inr ⟨b, t, h, (status_lineageCycle_iff t).mp (hr.cycle hc)⟩
    · exact Or.inl hc
  · intro hor
    by_cases hc : (lineage R w).CycleFrom absStart
    · obtain ⟨b', t', h', hlast⟩ := hor.resolve_left (not_not_intro hc)
      obtain ⟨rfl, rfl⟩ := h.unique h'
      exact ⟨fun _ => (status_lineageCycle_iff t).mpr hlast, fun hc' => absurd hc hc',
        fun hc' => absurd hc hc'⟩
    · obtain ⟨hd, hno⟩ := status_of_acyclic h hc
      exact ⟨fun hc' => absurd hc' hc, fun _ => hd, fun _ => hno⟩

/-! ### A cycle behind which a record dangles -/

/-- The path of a live handoff. -/
def livePath (name : Text) : Path := "/r/state/handoffs/".toList ++ name

/-- `s.md` continues itself and `b.md`, and `b.md` continues a record that is gone. -/
def selfAndDangling : Records where
  readMeta p :=
    if p = livePath "s.md".toList then
      [(.str "additional_predecessors".toList, .seq [.str "s.md".toList, .str "b.md".toList])]
    else if p = livePath "b.md".toList then
      [(.str "predecessor".toList, .str "gone.md".toList)]
    else []
  paths := {livePath "s.md".toList, livePath "b.md".toList}
  outside p hp := by
    simp only [Finset.mem_insert, Finset.mem_singleton, not_or] at hp
    rw [if_neg hp.1, if_neg hp.2]

/-- A walk along both kinds of predecessors, every gate open, where the two live records
resolve. -/
def bothPredecessors : WalkArgs where
  edgeKinds := ["predecessor".toList, "additional_predecessors".toList]
  nodeGate _ := true
  followIdAliases := true
  resolveTarget ref :=
    if ref = "s.md".toList ∨ ref = "b.md".toList then some (livePath ref) else none
  container _ := []

/-- The walk from `s.md` reports a missing link and hides the cycle of `s.md` through itself. -/
theorem selfAndDangling_hides_cycle :
    ¬ ∃ r n, (∀ m, n ≤ m → walkForward selfAndDangling bothPredecessors
        (livePath "s.md".toList) m = some r) ∧
      Reports selfAndDangling bothPredecessors (livePath "s.md".toList) r.terminatedEarly := by
  rintro ⟨r, n, hn, hr⟩
  have hself : (lineage selfAndDangling bothPredecessors).Edge (livePath "s.md".toList)
      (livePath "s.md".toList) := ⟨rfl, rfl, by decide⟩
  have hstatus := hr.cycle ⟨_, ⟨rfl, .refl⟩, .single hself⟩
  have hten : (loop (step selfAndDangling bothPredecessors) 10
      (walkStart (livePath "s.md".toList))).map (·.terminatedEarly) = some .missingLink := by
    decide
  obtain ⟨r', hr', hmissing⟩ := Option.map_eq_some_iff.mp hten
  obtain ⟨hsteps, hhalt⟩ := loop_eq_some hr'
  obtain ⟨k, hk⟩ := loop_of_steps hsteps hhalt
  have hsame := (hn (max n k) (le_max_left ..)).symm.trans (hk (max n k) (le_max_right ..))
  obtain rfl : r = r' := Option.some_injective _ hsame
  rw [hstatus] at hmissing
  cases hmissing

end Lineage

end CoordinatorCore
