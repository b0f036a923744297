import CoordinatorCore.Gate.Classify
import Mathlib.Data.List.Chain

/-!
# What the chase follows

The chase along continuations goes from record to record and remembers the records by an id that is
made for display: the `handoff_id`, or else the `id`, the `stub_id`, the value it came by. One
`stub_id` names a whole chain, so two records of a chain may have one id, and the chase takes the
second for the first.

`ToldApart` says that the ids tell the records of the chain apart, as far as it is new. The chase is
exact on a chain exactly then (`chaseExact_iff`): it ends shipped when the chain does, reports a
cycle only where a record comes again, and follows different records to the end.
-/

namespace CoordinatorCore

open Text

/-! ### Chains of a deterministic step -/

section

variable {σ : Type*}

/-- Two chains from one start are the same as far as the shorter goes. -/
theorem isPrefix_or_isPrefix_of_isChain {next : σ → Option σ} {s : σ} {l l' : List σ}
    (h : (s :: l).IsChain fun a b => next a = some b)
    (h' : (s :: l').IsChain fun a b => next a = some b) : l <+: l' ∨ l' <+: l := by
  induction l generalizing s l' with
  | nil => exact Or.inl List.nil_prefix
  | cons x l ih =>
    cases l' with
    | nil => exact Or.inr List.nil_prefix
    | cons y l' =>
      obtain ⟨hx, hl⟩ := List.isChain_cons_cons.mp h
      obtain ⟨hy, hl'⟩ := List.isChain_cons_cons.mp h'
      obtain rfl := Option.some.inj (hx.symm.trans hy)
      exact (ih hl hl').imp (List.prefix_cons_inj x).mpr (List.prefix_cons_inj x).mpr

/-- What goes on behind a prefix goes on from its last element. -/
theorem next_getLast_of_isChain {next : σ → Option σ} {s : σ} {l t : List σ} {x : σ}
    (h : (s :: (l ++ x :: t)).IsChain fun a b => next a = some b) :
    next (l.getLastD s) = some x := by
  induction l generalizing s with
  | nil => exact (List.isChain_cons_cons.mp h).1
  | cons y l ih =>
    rw [List.cons_append] at h
    have hrest := ih (List.isChain_cons_cons.mp h).2
    cases l with
    | nil => exact hrest
    | cons z l => exact hrest

/-- A chain that stops, or has used up its steps, is as long as any within the steps that stops or
uses them up. -/
theorem eq_of_isChain {next : σ → Option σ} {s : σ} {n : ℕ} {l l' : List σ}
    (h : (s :: l).IsChain fun a b => next a = some b)
    (h' : (s :: l').IsChain fun a b => next a = some b) (hl : l.length ≤ n) (hl' : l'.length ≤ n)
    (hstop : l.length = n ∨ next (l.getLastD s) = none)
    (hstop' : l'.length = n ∨ next (l'.getLastD s) = none) : l = l' := by
  have hpre : ∀ {l l' : List σ}, (s :: l').IsChain (fun a b => next a = some b) →
      l'.length ≤ n → (l.length = n ∨ next (l.getLastD s) = none) → l <+: l' → l = l' := by
    rintro l l' hchain hlen hstop ⟨t, rfl⟩
    cases t with
    | nil => rw [List.append_nil]
    | cons x t =>
      rcases hstop with hstop | hstop
      · rw [List.length_append, List.length_cons] at hlen
        omega
      · rw [next_getLast_of_isChain hchain] at hstop
        cases hstop
  rcases isPrefix_or_isPrefix_of_isChain h h' with hle | hle
  · exact hpre h' hl' hstop hle
  · exact (hpre h hl hstop' hle).symm

/-- A chain that stops does not come to an element again. -/
theorem nodup_of_isChain {next : σ → Option σ} {s : σ} {l : List σ}
    (h : (s :: l).IsChain fun a b => next a = some b) (hstop : next (l.getLastD s) = none) :
    (s :: l).Nodup := by
  induction l generalizing s with
  | nil => exact List.nodup_singleton s
  | cons x l ih =>
    obtain ⟨hx, hl⟩ := List.isChain_cons_cons.mp h
    rw [List.getLastD_cons] at hstop
    refine List.nodup_cons.mpr ⟨fun hmem => ?_, ih hl hstop⟩
    -- behind its second place the element would go on as it does behind the first
    obtain ⟨a, b, hab⟩ := List.append_of_mem hmem
    have hb : (s :: b).IsChain fun a b => next a = some b :=
      (List.isChain_append.mp (hab ▸ hl)).2.1
    have hlast : b.getLastD s = l.getLastD x := by
      have := congrArg (List.getLastD · s) hab
      simpa [List.getLast?_cons] using this.symm
    have hlen := congrArg List.length hab
    rw [List.length_cons, List.length_append, List.length_cons] at hlen
    have heq := eq_of_isChain hb h (n := l.length + 1) (by omega) (by simp)
      (.inr (hlast ▸ hstop)) (.inl (by simp))
    rw [heq, List.length_cons] at hlen
    omega

end

namespace Gate

/-! ### The chase with its ids -/

/-- What `_chase_continuation` returns: how the chase ends, and the ids it has met. -/
structure Chase where
  outcome : Outcome
  chainIds : List Val

/-- `_chase_continuation`, with the hops that are left. The ids met are those of `chain_ids`. -/
def chase (index : TypedHandoffIndex) (hops : ℕ) (chainIds : List Val) (current : Dict) :
    Except Raised Chase :=
  if deploymentState current = some State.shipped then
    .ok ⟨.shipped (nonEmptyStr (current.get Key.shippedIn)), chainIds⟩
  else if deploymentState current ≠ some State.continued then .ok ⟨.stillOpen, chainIds⟩
  else match hops with
    | 0 => .ok ⟨.depthCap, chainIds⟩
    | hops + 1 =>
      match resolveContinuationTarget index (current.get Key.continuedInto) with
      | none => .ok ⟨.unresolved, chainIds⟩
      | some next =>
        let nextId := successorId next (current.get Key.continuedInto)
        if nextId.hashable = false then .error .typeError
        else if chainIds.any (Val.pyEq nextId) then .ok ⟨.cycle, chainIds⟩
        else chase index hops (chainIds ++ [nextId]) next

/-- How the chase ends is what the classification reads. -/
theorem chase_outcome (index : TypedHandoffIndex) (hops : ℕ) (visited : List Val)
    (current : Dict) : (chase index hops visited.reverse current).map (·.outcome) =
      chaseContinuation index hops visited current := by
  induction hops generalizing visited current with
  | zero =>
    rw [chase, chaseContinuation]
    split_ifs <;> rfl
  | succ hops ih =>
    rw [chase, chaseContinuation]
    split_ifs
    · rfl
    · rfl
    · cases resolveContinuationTarget index (current.get Key.continuedInto) with
      | none => rfl
      | some next =>
        dsimp only
        rw [List.any_reverse, ← List.reverse_cons]
        split_ifs
        · rfl
        · rfl
        · exact ih _ _

/-- The record a continued record leads to. -/
def hop (index : TypedHandoffIndex) (record : Dict) : Option Dict :=
  if deploymentState record = some State.continued then
    resolveContinuationTarget index (record.get Key.continuedInto)
  else none

/-- What the chase answers at a record from which it does not go on. -/
def ending (hops : ℕ) (record : Dict) : Outcome :=
  if deploymentState record = some State.shipped then
    .shipped (nonEmptyStr (record.get Key.shippedIn))
  else if deploymentState record ≠ some State.continued then .stillOpen
  else if hops = 0 then .depthCap
  else .unresolved

theorem ending_ne_cycle (hops : ℕ) (record : Dict) : ending hops record ≠ .cycle := by
  rw [ending]
  split_ifs <;> exact fun h => nomatch h

theorem ending_eq_shipped_iff {hops : ℕ} {record : Dict} :
    (∃ sha, ending hops record = .shipped sha) ↔
      deploymentState record = some State.shipped := by
  rw [ending]
  split_ifs with hs
  · exact iff_of_true ⟨_, rfl⟩ hs
  all_goals exact iff_of_false (fun ⟨_, h⟩ => nomatch h) hs

variable {index : TypedHandoffIndex}

theorem hop_of_shipped {record : Dict} (h : deploymentState record = some State.shipped) :
    hop index record = none := by
  rw [hop, h]
  exact if_neg (by decide)

/-- The chase stops at a record that leads nowhere, and when the hops are used up. -/
theorem chase_of_stop {hops : ℕ} {ids : List Val} {record : Dict}
    (h : hops = 0 ∨ hop index record = none) :
    chase index hops ids record = .ok ⟨ending hops record, ids⟩ := by
  unfold chase ending
  split_ifs with hs hc hzero
  · rfl
  · rfl
  · rw [hzero]
  · obtain ⟨n, rfl⟩ := Nat.exists_eq_succ_of_ne_zero hzero
    have hnone := h.resolve_left hzero
    rw [hop, if_pos (not_not.mp hc)] at hnone
    simp only [hnone]

/-- One hop of the chase. -/
theorem chase_of_hop (hops : ℕ) (ids : List Val) {record next : Dict}
    (h : hop index record = some next) :
    chase index (hops + 1) ids record =
      if (successorId next (record.get Key.continuedInto)).hashable = false then
        .error .typeError
      else if ids.any (Val.pyEq (successorId next (record.get Key.continuedInto))) then
        .ok ⟨.cycle, ids⟩
      else chase index hops (ids ++ [successorId next (record.get Key.continuedInto)]) next := by
  have hs : deploymentState record ≠ some State.shipped := by
    intro hs
    rw [hop_of_shipped hs] at h
    cases h
  rw [hop] at h
  split_ifs at h with hc
  rw [chase, if_neg hs, if_neg (not_not.mpr hc)]
  simp only [h]

/-! ### Ids that tell the records apart -/

variable (index)

/-- As far as the chain leads to records not met yet, each has an id of its own. -/
def ToldApart : ℕ → List (Val × Dict) → Dict → Prop
  | 0, _, _ => True
  | hops + 1, met, current => ∀ next, hop index current = some next →
    (successorId next (current.get Key.continuedInto)).hashable = true ∧
      (next ∉ met.map Prod.snd →
        (met.map Prod.fst).any
            (Val.pyEq (successorId next (current.get Key.continuedInto))) = false ∧
          ToldApart hops (met ++ [(successorId next (current.get Key.continuedInto), next)]) next)

/-- A record and its id follow another record. -/
def Successor (a b : Val × Dict) : Prop :=
  hop index a.2 = some b.2 ∧ b.1 = successorId b.2 (a.2.get Key.continuedInto) ∧
    b.1.hashable = true

/-- What the chase has met: records that follow each other, the current one the last. -/
structure Met (met : List (Val × Dict)) (current : Dict) : Prop where
  chain : met.IsChain (Successor index)
  last : ∃ front id, met = front ++ [(id, current)]

variable {index} {met : List (Val × Dict)} {current : Dict}

theorem Met.concat (h : Met index met current) {next : Dict} (hhop : hop index current = some next)
    (hhash : (successorId next (current.get Key.continuedInto)).hashable = true) :
    Met index (met ++ [(successorId next (current.get Key.continuedInto), next)]) next := by
  obtain ⟨front, id, rfl⟩ := h.last
  refine ⟨List.isChain_append.mpr ⟨h.chain, List.isChain_singleton _, fun a ha b hb => ?_⟩,
    _, _, rfl⟩
  rw [List.getLast?_concat, Option.mem_some_iff] at ha
  rw [List.head?_cons, Option.mem_some_iff] at hb
  obtain rfl := ha
  obtain rfl := hb
  exact ⟨hhop, rfl, hhash⟩

/-- Where the current record was met before, the chase stops with the next hop: the record it leads
to was met too, under the id it has again. -/
theorem Met.chase_of_again (h : Met index met current) (hagain : ¬ (met.map Prod.snd).Nodup)
    (hnodup : (met.dropLast.map Prod.snd).Nodup) (hops : ℕ) :
    (hops = 0 ∧ chase index hops (met.map Prod.fst) current =
      .ok ⟨.depthCap, met.map Prod.fst⟩) ∨
    ∃ next, hops ≠ 0 ∧ hop index current = some next ∧
      chase index hops (met.map Prod.fst) current = .ok ⟨.cycle, met.map Prod.fst⟩ := by
  obtain ⟨front, id, rfl⟩ := h.last
  rw [List.dropLast_concat] at hnodup
  have hmem : current ∈ front.map Prod.snd := by
    by_contra hnew
    refine hagain ?_
    rw [List.map_append]
    refine List.nodup_append.mpr ⟨hnodup, List.nodup_singleton _, fun a ha b hb => ?_⟩
    rintro rfl
    obtain rfl := List.mem_singleton.mp hb
    exact hnew ha
  obtain ⟨⟨id', record⟩, hfront, rfl⟩ := List.mem_map.mp hmem
  obtain ⟨a, b, rfl⟩ := List.append_of_mem hfront
  -- the record that followed it the first time
  obtain ⟨y, t, hyt⟩ : ∃ y t, b ++ [(id, record)] = y :: t := by
    cases b with
    | nil => exact ⟨_, [], rfl⟩
    | cons y b => exact ⟨y, b ++ [(id, record)], rfl⟩
  have hmet : (a ++ (id', record) :: b) ++ [(id, record)] = a ++ (id', record) :: y :: t := by
    rw [List.append_assoc, List.cons_append, hyt]
  have hchain := h.chain
  rw [hmet] at hchain ⊢
  obtain ⟨hhop, hid, hhash⟩ :=
    (List.isChain_cons_cons.mp (List.isChain_append.mp hchain).2.1).1
  cases hops with
  | zero =>
    refine Or.inl ⟨rfl, ?_⟩
    have hc : deploymentState record = some State.continued := by
      by_contra hc
      rw [hop, if_neg hc] at hhop
      cases hhop
    rw [chase_of_stop (Or.inl rfl), ending, hc, if_neg (by decide), if_neg (by simp), if_pos rfl]
  | succ hops =>
    refine Or.inr ⟨y.2, by simp, hhop, ?_⟩
    rw [chase_of_hop _ _ hhop, ← hid, if_neg (by simp [hhash]), if_pos]
    exact List.any_eq_true.mpr ⟨y.1, List.mem_map_of_mem (by simp), Val.pyEq_refl _⟩

/-! ### Where the chase ends -/

/-- The records a chain of continuations goes through. -/
abbrev Continues (index : TypedHandoffIndex) (a b : Dict) : Prop := hop index a = some b

/-- The chase has followed different records to the end of their chain. -/
def EndsAt (index : TypedHandoffIndex) (hops : ℕ) (met : List (Val × Dict)) (current : Dict)
    (l : List Dict) (c : Chase) : Prop :=
  (met.map Prod.snd ++ l).Nodup ∧ (l.length = hops ∨ hop index (l.getLastD current) = none) ∧
    c.chainIds.length = met.length + l.length ∧
      c.outcome = ending (hops - l.length) (l.getLastD current)

/-- The chase has come to a record again, and reports it or has used up its hops. -/
def ComesAgain (met : List (Val × Dict)) (l : List Dict) (c : Chase) : Prop :=
  ¬ (met.map Prod.snd ++ l).Nodup ∧
    (c.outcome = .cycle ∧ c.chainIds.length + 1 = met.length + l.length ∨ c.outcome = .depthCap)

/-- While the ids tell the records apart, the chase follows the chain. -/
theorem Met.exists_chase (h : Met index met current) (hnodup : (met.map Prod.snd).Nodup)
    {hops : ℕ} (htold : ToldApart index hops met current) :
    ∃ l c, (current :: l).IsChain (Continues index) ∧ l.length ≤ hops ∧
      chase index hops (met.map Prod.fst) current = .ok c ∧
        (EndsAt index hops met current l c ∨ ComesAgain met l c) := by
  induction hops generalizing met current with
  | zero =>
    refine ⟨[], _, List.isChain_singleton _, le_rfl, chase_of_stop (Or.inl rfl), Or.inl ?_⟩
    exact ⟨by simpa using hnodup, Or.inl rfl, by simp, rfl⟩
  | succ hops ih =>
    cases hhop : hop index current with
    | none =>
      refine ⟨[], _, List.isChain_singleton _, Nat.zero_le _, chase_of_stop (Or.inr hhop),
        Or.inl ?_⟩
      exact ⟨by simpa using hnodup, Or.inr hhop, by simp, rfl⟩
    | some next =>
      obtain ⟨hhash, hfresh⟩ := htold next hhop
      have hmet := h.concat hhop hhash
      have hstep := chase_of_hop hops (met.map Prod.fst) hhop
      rw [if_neg (by simp [hhash])] at hstep
      by_cases hmem : next ∈ met.map Prod.snd
      · have hagain : ∀ t, ¬ (met.map Prod.snd ++ next :: t).Nodup := by
          intro t hall
          exact (List.nodup_append.mp hall).2.2 next hmem next (List.mem_cons_self ..) rfl
        by_cases hstale : (met.map Prod.fst).any
            (Val.pyEq (successorId next (current.get Key.continuedInto))) = true
        · rw [if_pos hstale] at hstep
          refine ⟨[next], _, List.isChain_pair.mpr hhop, by simp, hstep, Or.inr ⟨hagain [], ?_⟩⟩
          exact Or.inl ⟨rfl, by simp⟩
        · -- the record comes again under a new id: the next hop tells
          rw [if_neg hstale] at hstep
          have hmap : (met ++ [(successorId next (current.get Key.continuedInto), next)]).map
              Prod.fst = met.map Prod.fst ++ [successorId next (current.get Key.continuedInto)] :=
            List.map_append
          rw [← hmap] at hstep
          have hlast : ¬ ((met ++ [(successorId next (current.get Key.continuedInto), next)]).map
              Prod.snd).Nodup := by
            rw [List.map_append]
            exact hagain []
          rcases hmet.chase_of_again hlast (by rwa [List.dropLast_concat]) hops with
            ⟨rfl, hcap⟩ | ⟨next', hne, hhop', hcycle⟩
          · refine ⟨[next], _, List.isChain_pair.mpr hhop, by simp, hstep.trans hcap,
              Or.inr ⟨hagain [], Or.inr rfl⟩⟩
          · refine ⟨[next, next'], _, List.isChain_cons_cons.mpr
              ⟨hhop, List.isChain_pair.mpr hhop'⟩, ?_, hstep.trans hcycle,
              Or.inr ⟨hagain [next'], Or.inl ⟨rfl, by simp⟩⟩⟩
            simp only [List.length_cons, List.length_nil]
            omega
      · obtain ⟨hnew, hrest⟩ := hfresh hmem
        rw [if_neg (by simp [hnew])] at hstep
        have hnodup' : ((met ++ [(successorId next (current.get Key.continuedInto), next)]).map
            Prod.snd).Nodup := by
          rw [List.map_append]
          refine List.nodup_append.mpr ⟨hnodup, List.nodup_singleton _, fun a ha b hb => ?_⟩
          rintro rfl
          obtain rfl := List.mem_singleton.mp hb
          exact hmem ha
        obtain ⟨l, c, hchain, hlen, hchase, hend⟩ := ih hmet hnodup' hrest
        rw [List.map_append, List.map_singleton] at hchase
        refine ⟨next :: l, c, List.isChain_cons_cons.mpr ⟨hhop, hchain⟩, by simpa using hlen,
          hstep.trans hchase, ?_⟩
        simp only [EndsAt, ComesAgain, List.map_append, List.map_singleton, List.append_assoc,
          List.singleton_append, List.length_append, List.length_singleton] at hend
        simp only [EndsAt, ComesAgain, List.length_cons, List.getLastD_cons,
          Nat.add_sub_add_right]
        refine hend.imp (fun ⟨hall, hstop, hids, hout⟩ => ⟨hall, hstop.imp_left fun hl => by rw [hl],
          by omega, hout⟩)
          fun ⟨hall, hout⟩ => ⟨hall, hout.imp_left fun ⟨hcycle, hids⟩ => ⟨hcycle, by omega⟩⟩

/-- Where the ids do not tell the records apart, the chase fails, or it reports a cycle among
different records. -/
theorem Met.of_not_toldApart (h : Met index met current) (hnodup : (met.map Prod.snd).Nodup)
    {hops : ℕ} (htold : ¬ ToldApart index hops met current) :
    (∃ e, chase index hops (met.map Prod.fst) current = .error e) ∨
      ∃ l c, (current :: l).IsChain (Continues index) ∧ (met.map Prod.snd ++ l).Nodup ∧
        chase index hops (met.map Prod.fst) current = .ok c ∧ c.outcome = .cycle ∧
          c.chainIds.length + 1 = met.length + l.length := by
  induction hops generalizing met current with
  | zero => exact absurd trivial htold
  | succ hops ih =>
    rw [ToldApart] at htold
    push Not at htold
    obtain ⟨next, hhop, hbad⟩ := htold
    have hstep := chase_of_hop hops (met.map Prod.fst) hhop
    by_cases hhash : (successorId next (current.get Key.continuedInto)).hashable = true
    · obtain ⟨hnew, hrest⟩ := hbad hhash
      rw [if_neg (by simp [hhash])] at hstep
      have hnodup' : (met.map Prod.snd ++ [next]).Nodup := by
        refine List.nodup_append.mpr ⟨hnodup, List.nodup_singleton _, fun a ha b hb => ?_⟩
        rintro rfl
        obtain rfl := List.mem_singleton.mp hb
        exact hnew ha
      -- a new record under an id met before is taken for a cycle
      by_cases hstale : (met.map Prod.fst).any
          (Val.pyEq (successorId next (current.get Key.continuedInto))) = true
      · rw [if_pos hstale] at hstep
        exact Or.inr ⟨[next], _, List.isChain_pair.mpr hhop, hnodup', hstep, rfl, by simp⟩
      · rw [if_neg hstale] at hstep
        have hmap : met.map Prod.snd ++ [next] = (met ++
            [(successorId next (current.get Key.continuedInto), next)]).map Prod.snd := by
          rw [List.map_append, List.map_singleton]
        rw [hmap] at hnodup'
        rcases ih (h.concat hhop hhash) hnodup' (hrest (by simpa using hstale)) with
          ⟨e, he⟩ | ⟨l, c, hchain, hall, hchase, hcycle, hids⟩
        · rw [List.map_append, List.map_singleton] at he
          exact Or.inl ⟨e, hstep.trans he⟩
        · rw [List.map_append, List.map_singleton] at hchase hall
          rw [List.append_assoc, List.singleton_append] at hall
          rw [List.length_append, List.length_singleton] at hids
          refine Or.inr ⟨next :: l, c, List.isChain_cons_cons.mpr ⟨hhop, hchain⟩, hall,
            hstep.trans hchase, hcycle, ?_⟩
          rw [List.length_cons]
          omega
    · rw [if_pos (by simpa using hhash)] at hstep
      exact Or.inl ⟨_, hstep⟩

/-! ### Exactness -/

/-- Some hops, eight at most, lead through different records, all but the last continued, to a
shipped one. -/
def Ships (index : TypedHandoffIndex) (blocker : Dict) : Prop :=
  ∃ l, (blocker :: l).IsChain (Continues index) ∧ (blocker :: l).Nodup ∧
    l.length ≤ maxContinuationChaseDepth ∧
      deploymentState (l.getLastD blocker) = some State.shipped

/-- The chase from a blocker is exact: it returns; it ends shipped exactly when the chain does;
where it reports a cycle, a record of the hops followed has come again; and different records are
followed to the end of their chain. -/
def ChaseExact (index : TypedHandoffIndex) (blockerId : Text) (blocker : Dict) : Prop :=
  ∃ c, chase index maxContinuationChaseDepth [.str blockerId] blocker = .ok c ∧
    ((∃ sha, c.outcome = .shipped sha) ↔ Ships index blocker) ∧
    (c.outcome = .cycle → ∃ l, (blocker :: l).IsChain (Continues index) ∧
      l.length = c.chainIds.length ∧ ¬ (blocker :: l).Nodup) ∧
    ∀ l, (blocker :: l).IsChain (Continues index) → (blocker :: l).Nodup →
      l.length ≤ maxContinuationChaseDepth →
        (l.length = maxContinuationChaseDepth ∨ hop index (l.getLastD blocker) = none) →
          c.outcome ≠ .cycle ∧ c.chainIds.length = l.length + 1

/-- The chase is exact exactly when the ids tell the records of the chain apart. -/
theorem chaseExact_iff (index : TypedHandoffIndex) (blockerId : Text) (blocker : Dict) :
    ChaseExact index blockerId blocker ↔
      ToldApart index maxContinuationChaseDepth [(.str blockerId, blocker)] blocker := by
  have hmet : Met index [(.str blockerId, blocker)] blocker :=
    ⟨List.isChain_singleton _, [], _, rfl⟩
  have hnodup : ([(Val.str blockerId, blocker)].map Prod.snd).Nodup := List.nodup_singleton _
  constructor
  · rintro ⟨c, hc, -, hcycle, -⟩
    by_contra hnot
    rcases hmet.of_not_toldApart hnodup hnot with ⟨e, he⟩ | ⟨l, c', hchain, hall, hc', hout, hids⟩
    · cases he.symm.trans hc
    · obtain rfl : c = c' := Except.ok.inj (hc.symm.trans hc')
      obtain ⟨l', hchain', hlen, hagain⟩ := hcycle hout
      have heq : l = l' := by
        rw [List.length_singleton] at hids
        exact eq_of_isChain hchain hchain' (n := l.length) le_rfl (by omega) (Or.inl rfl)
          (Or.inl (by omega))
      exact hagain (heq ▸ hall)
  · intro htold
    obtain ⟨l, c, hchain, hlen, hc, hend⟩ := hmet.exists_chase hnodup htold
    refine ⟨c, hc, ?_⟩
    rcases hend with ⟨hall, hstop, hids, hout⟩ | ⟨hagain, hout⟩
    · -- any other chain that ends is this one
      have honly : ∀ l', (blocker :: l').IsChain (Continues index) →
          l'.length ≤ maxContinuationChaseDepth →
            (l'.length = maxContinuationChaseDepth ∨ hop index (l'.getLastD blocker) = none) →
              l' = l := fun l' hchain' hlen' hstop' =>
        eq_of_isChain hchain' hchain hlen' hlen hstop' hstop
      refine ⟨?_, fun hcycle => ?_, fun l' hchain' _ hlen' hstop' => ?_⟩
      · rw [hout, ending_eq_shipped_iff]
        constructor
        · exact fun hs => ⟨l, hchain, hall, hlen, hs⟩
        · rintro ⟨l', hchain', -, hlen', hs⟩
          rwa [honly l' hchain' hlen' (Or.inr (hop_of_shipped hs))] at hs
      · exact absurd (hout.symm.trans hcycle) (ending_ne_cycle _ _)
      · rw [honly l' hchain' hlen' hstop', hids, List.length_singleton, hout]
        exact ⟨ending_ne_cycle _ _, Nat.add_comm _ _⟩
    · -- no chain of different records ends
      have hnone : ∀ l', (blocker :: l').IsChain (Continues index) → (blocker :: l').Nodup →
          l'.length ≤ maxContinuationChaseDepth →
            (l'.length = maxContinuationChaseDepth ∨ hop index (l'.getLastD blocker) = none) →
              False := by
        intro l' hchain' hall' hlen' hstop'
        rcases isPrefix_or_isPrefix_of_isChain hchain hchain' with hle | hle
        · exact hagain (hall'.sublist ((List.prefix_cons_inj blocker).mpr hle).sublist)
        · obtain ⟨t, rfl⟩ := hle
          cases t with
          | nil =>
            rw [List.append_nil] at hagain
            exact hagain hall'
          | cons x t =>
            rcases hstop' with hstop' | hstop'
            · rw [List.length_append, List.length_cons] at hlen
              omega
            · rw [next_getLast_of_isChain hchain] at hstop'
              cases hstop'
      refine ⟨iff_of_false ?_ ?_, fun hcycle => ?_, fun l' hchain' hall' hlen' hstop' =>
        (hnone l' hchain' hall' hlen' hstop').elim⟩
      · rintro ⟨sha, hsha⟩
        rcases hout with ⟨hcycle, -⟩ | hcap
        · cases hsha.symm.trans hcycle
        · cases hsha.symm.trans hcap
      · rintro ⟨l', hchain', hall', hlen', hs⟩
        exact hnone l' hchain' hall' hlen' (Or.inr (hop_of_shipped hs))
      · rcases hout with ⟨-, hids⟩ | hcap
        · refine ⟨l, hchain, ?_, hagain⟩
          rw [List.length_singleton] at hids
          omega
        · cases hcycle.symm.trans hcap

/-! ### Shipped with a commit -/

/-- A record is discharged where its chain ends shipped with a commit. -/
theorem discharged_iff {hops : ℕ} {record : Dict} {sha : Text} :
    Discharged index hops record sha ↔
      ∃ l, (record :: l).IsChain (Continues index) ∧ l.length ≤ hops ∧
        deploymentState (l.getLastD record) = some State.shipped ∧
          nonEmptyStr ((l.getLastD record).get Key.shippedIn) = some sha := by
  induction hops generalizing record with
  | zero =>
    constructor
    · intro h
      exact ⟨[], List.isChain_singleton _, le_rfl, h.1, nonEmptyStr_eq_some.mpr h.2⟩
    · rintro ⟨l, -, hlen, hs, hsha⟩
      obtain rfl := List.length_eq_zero_iff.mp (Nat.le_zero.mp hlen)
      exact ⟨hs, nonEmptyStr_eq_some.mp hsha⟩
  | succ hops ih =>
    constructor
    · rintro (h | ⟨hc, next, hres, h⟩)
      · exact ⟨[], List.isChain_singleton _, Nat.zero_le _, h.1, nonEmptyStr_eq_some.mpr h.2⟩
      · obtain ⟨l, hchain, hlen, hs, hsha⟩ := ih.mp h
        have hhop : hop index record = some next := by rw [hop, if_pos hc, hres]
        refine ⟨next :: l, List.isChain_cons_cons.mpr ⟨hhop, hchain⟩, Nat.succ_le_succ hlen, ?_⟩
        rw [List.getLastD_cons]
        exact ⟨hs, hsha⟩
    · rintro ⟨l, hchain, hlen, hs, hsha⟩
      cases l with
      | nil => exact .inl ⟨hs, nonEmptyStr_eq_some.mp hsha⟩
      | cons next l =>
        obtain ⟨hhop, hrest⟩ := List.isChain_cons_cons.mp hchain
        rw [Continues, hop] at hhop
        split_ifs at hhop with hc
        rw [List.getLastD_cons] at hs hsha
        exact .inr ⟨hc, next, hhop, ih.mpr ⟨l, hrest, Nat.le_of_succ_le_succ hlen, hs, hsha⟩⟩

/-- The chase ends at a commit where the chain does and the ids tell its records apart. -/
theorem chaseContinuation_eq_shipped_iff {id sha : Text} {blocker : Dict} :
    chaseContinuation index maxContinuationChaseDepth [.str id] blocker =
        .ok (.shipped (some sha)) ↔
      Discharged index maxContinuationChaseDepth blocker sha ∧
        ToldApart index maxContinuationChaseDepth [(.str id, blocker)] blocker := by
  have hmet : Met index [(.str id, blocker)] blocker := ⟨List.isChain_singleton _, [], _, rfl⟩
  have hnodup : ([(Val.str id, blocker)].map Prod.snd).Nodup := List.nodup_singleton _
  have hchase := chase_outcome index maxContinuationChaseDepth [.str id] blocker
  rw [List.reverse_singleton] at hchase
  constructor
  · intro h
    refine ⟨chaseContinuation_discharged h, ?_⟩
    rw [← hchase] at h
    by_contra hnot
    rcases hmet.of_not_toldApart hnodup hnot with ⟨e, he⟩ | ⟨-, c, -, -, hc, hout, -⟩
    · rw [List.map_singleton] at he
      rw [he] at h
      cases h
    · rw [List.map_singleton] at hc
      rw [hc] at h
      cases hout.symm.trans (Except.ok.inj h)
  · rintro ⟨hdischarged, htold⟩
    obtain ⟨l', hchain', hlen', hs, hsha⟩ := discharged_iff.mp hdischarged
    have hstop : hop index (l'.getLastD blocker) = none := hop_of_shipped hs
    obtain ⟨l, c, hchain, hlen, hc, hend⟩ := hmet.exists_chase hnodup htold
    rw [List.map_singleton] at hc
    rw [← hchase, hc]
    rcases hend with ⟨-, hstop', -, hout⟩ | ⟨hagain, -⟩
    · obtain rfl := eq_of_isChain hchain hchain' hlen hlen' hstop' (.inr hstop)
      rw [ending, if_pos hs, hsha] at hout
      exact congrArg Except.ok hout
    · -- a chain that stops does not come to a record again
      refine absurd ?_ hagain
      have hall := nodup_of_isChain hchain' hstop
      rcases isPrefix_or_isPrefix_of_isChain hchain hchain' with hle | ⟨t, rfl⟩
      · exact hall.sublist ((List.prefix_cons_inj blocker).mpr hle).sublist
      · cases t with
        | nil => rwa [List.append_nil]
        | cons x t =>
          rw [next_getLast_of_isChain hchain] at hstop
          cases hstop

/-! ### Two records of one stub -/

/-- A continued record, with the path it lives under and the one of its successor. -/
def continuedStub (path into : Text) : Dict :=
  [(.str Key.stubId, .str ['s', '1']), (.str Key.path, .str path),
    (.str Key.deploymentState, .str State.continued), (.str Key.continuedInto, .str into)]

/-- The stub that has the work in the end. -/
def lastStub : Dict :=
  [(.str Key.stubId, .str ['s', '2']), (.str Key.path, .str ['c']),
    (.str Key.deploymentState, .str State.shipped), (.str Key.shippedIn, .str ['f'])]

/-- The second record of the stub, the first, and the last stub. -/
abbrev stubChain : List Dict :=
  [continuedStub ['b'] ['c'], continuedStub ['a'] ['b'], lastStub]

/-- The chase takes the second record of a stub for the first, and misses what has shipped. -/
theorem chase_reports_cycle : ¬ ∀ corpus id blocker, (indexById corpus).get id = some blocker →
    deploymentState blocker = some State.continued →
      ChaseExact (indexById corpus) id blocker := by
  intro h
  obtain ⟨c, hc, hships, -, -⟩ := h stubChain ['s', '1'] (continuedStub ['a'] ['b']) rfl rfl
  have hcycle : chase (indexById stubChain) maxContinuationChaseDepth [.str ['s', '1']]
      (continuedStub ['a'] ['b']) = .ok ⟨.cycle, [.str ['s', '1']]⟩ := rfl
  obtain rfl := Except.ok.inj (hc.symm.trans hcycle)
  have hchain : Ships (indexById stubChain) (continuedStub ['a'] ['b']) := by
    refine ⟨[continuedStub ['b'] ['c'], lastStub], ?_, ?_, by decide, rfl⟩
    · exact List.isChain_cons_cons.mpr ⟨rfl, List.isChain_pair.mpr rfl⟩
    · simp [continuedStub, lastStub]
  obtain ⟨sha, hsha⟩ := hships.mpr hchain
  cases hsha

end Gate

end CoordinatorCore
