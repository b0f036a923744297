import CoordinatorCore.Machine.Run
import CoordinatorCore.Touch.Family
import CoordinatorCore.Touch.Fold

/-!
# The remembered fold

`read_stream_claims_and_held_kind` remembers the fold of a sink together with the size and the time
of its live file. When the file has only grown since, `foldGrown` reads on from where the last fold
ended instead of folding the whole family again.

The machine is one sink with the fold remembered of it: files are appended to and rotated, folds are
read and evicted. In every run the remembered fold describes the sink (`Describes`), so a read says
what a whole read would say (`incremental_fold`), as long as it does not go on from a remembered fold
into a live file that a whole read would refuse for its size.
-/

namespace CoordinatorCore

namespace Touch

/-! ### The sink and its fold -/

/-- A value of `_FOLD_CACHE`. -/
structure FoldEntry where
  size : Nat
  mtime : Nat
  claims : Table PyStr TouchEvent
  held : Table PyStr (Option Kind)
  consumed : Nat
  anchor : Bytes
  rotated : List Text
  events : List TouchEvent

/-- A sink: its directory, the time of its live file, all times it has had, and the fold
remembered of it. -/
structure Sink where
  dir : Table Text Bytes
  mtime : Nat
  used : List Nat
  cache : Option FoldEntry

/-- A sink nothing was written to. -/
def Sink.empty : Sink := ⟨∅, 0, [], none⟩

/-- `_TAIL_ANCHOR_BYTES`. -/
def tailAnchorBytes : Nat := 64

/-- `raw.rfind(b"\n") + 1`. -/
def endOfLines (raw : Bytes) : Nat := (raw.rdropWhile (· ≠ newline)).length

/-- `raw[max(end - _TAIL_ANCHOR_BYTES, 0):end]`. -/
def bytesBefore (raw : Bytes) (stop : Nat) : Bytes := (raw.take stop).drop (stop - tailAnchorBytes)

/-- `_anchor_at`. -/
def anchorAt (anchor tail : Bytes) (offset consumed : Nat) : Bytes :=
  bytesBefore (anchor ++ tail) (anchor.length + (consumed - offset))

/-- A listed file. -/
def toMember (e : Text × Bytes) : Member := ⟨e.1, e.2⟩

/-- The files of the sink. -/
def family (name : Text) (s : Sink) : List Member := (discoverFamily name s.dir).map toMember

/-- The rotated files of the sink. -/
def rotatedMembers (name : Text) (s : Sink) : List Member := (rotatedFiles name s.dir).map toMember

/-- The names of the rotated files. -/
def rotatedNames (name : Text) (s : Sink) : List Text := (rotatedMembers name s).map Member.name

/-- The fold of a live file that stands behind these rotated files. -/
def entryOf (events : List TouchEvent) (rotated : List Text) (mtime : Nat) (raw : Bytes) :
    FoldEntry where
  size := raw.length
  mtime := mtime
  claims := claimsOf events
  held := heldKind events
  consumed := endOfLines raw
  anchor := bytesBefore raw (endOfLines raw)
  rotated := rotated
  events := events

/-- The whole read, and the fold it remembers: only of a clean read with a live file. -/
def readWhole (name : Text) (s : Sink) : Except DecodeError (StreamRead × Option FoldEntry) :=
  (readMembers (family name s)).map fun (events, reasons) =>
    (foldResult events reasons,
      if reasons.isEmpty then (s.dir.get name).map (entryOf events (rotatedNames name s) s.mtime)
      else none)

/-- `_fold_grown_sink`; `none` sends the caller to the whole read. -/
def foldGrown (name : Text) (s : Sink) (cached : FoldEntry) (raw : Bytes) :
    Except DecodeError (Option (StreamRead × FoldEntry)) :=
  if raw.length ≤ cached.consumed then .ok none
  else if rotatedNames name s ≠ cached.rotated then .ok none
  else
    let start := cached.consumed - cached.anchor.length
    let data := raw.drop start
    if data.take cached.anchor.length ≠ cached.anchor then .ok none
    else
      let tail := data.drop cached.anchor.length
      match (iterCompleteLines tail).mapM decodeLine with
      | .error .malformed => .ok none
      | .error .uncaught => .error .uncaught
      | .ok newEvents =>
        let events := cached.events ++ newEvents
        let consumed := cached.consumed + endOfLines tail
        .ok (some (foldResult events [],
          { size := start + data.length
            mtime := s.mtime
            claims := claimsOf events
            held := heldKind events
            consumed := consumed
            anchor := anchorAt cached.anchor tail cached.consumed consumed
            rotated := cached.rotated
            events := events }))

/-- The whole read in place of the remembered fold. -/
def readAnew (name : Text) (s : Sink) : Except DecodeError StreamRead × Option FoldEntry :=
  match readWhole name s with
  | .error e => (.error e, s.cache)
  | .ok (r, kept) => (.ok r, kept.or s.cache)

/-- `read_stream_claims_and_held_kind`: the answer, and what is remembered behind it. -/
def read (name : Text) (s : Sink) : Except DecodeError StreamRead × Option FoldEntry :=
  match s.cache, s.dir.get name with
  | some cached, some raw =>
    if cached.size = raw.length ∧ cached.mtime = s.mtime then
      (.ok ⟨cached.claims, cached.held, false, []⟩, s.cache)
    else
      match foldGrown name s cached raw with
      | .error e => (.error e, s.cache)
      | .ok (some (r, entry)) => (.ok r, some entry)
      | .ok none => readAnew name s
  | _, _ => readAnew name s

/-! ### Runs -/

/-- What happens to a sink. -/
inductive SinkOp
  | append (bytes : Bytes) (mtime : Nat)
  | rotate (ts pid seq : Nat)
  | evict
  | read

/-- The live file with bytes behind it, at a new time. -/
def Sink.append (name : Text) (s : Sink) (bytes : Bytes) (mtime : Nat) : Sink :=
  { s with dir := s.dir.set name ((s.dir.get name).getD [] ++ bytes), mtime := mtime,
           used := mtime :: s.used }

/-- `os.replace(live, rotated)`. -/
def Sink.rename (name : Text) (s : Sink) (raw : Bytes) (target : Text) : Sink :=
  { s with dir := (s.dir.erase name).set target raw }

/-- One operation. An append gives the live file a time it has not had; a rotation takes a name that
is not there. -/
def sinkStep (name : Text) (s : Sink) : SinkOp → Option Sink
  | .append bytes mtime => if mtime ∈ s.used then none else some (s.append name bytes mtime)
  | .rotate ts pid seq =>
    match s.dir.get name with
    | some raw =>
      if (s.dir.get (rotatedName name ts pid seq)).isSome then none
      else some (s.rename name raw (rotatedName name ts pid seq))
    | none => none
  | .evict => some { s with cache := none }
  | .read => some { s with cache := (read name s).2 }

/-- A read does not go on from a remembered fold into a live file above the bound of a whole
read. -/
def WithinBound (name : Text) (s : Sink) (op : SinkOp) : Prop :=
  match op with
  | .read => s.cache = none ∨ ∀ raw, s.dir.get name = some raw → raw.length ≤ maxSinkBytes
  | _ => True

/-! ### Offsets -/

private theorem take_endOfLines (raw : Bytes) :
    raw.take (endOfLines raw) = raw.rdropWhile (· ≠ newline) :=
  (List.prefix_iff_eq_take.mp (List.rdropWhile_prefix ..)).symm

/-- The complete lines lie within the bytes. -/
theorem endOfLines_le (raw : Bytes) : endOfLines raw ≤ raw.length :=
  (List.rdropWhile_prefix ..).length_le

/-- What was folded ends with a newline. -/
theorem closed_take_endOfLines (raw : Bytes) : Closed (raw.take (endOfLines raw)) := by
  rw [take_endOfLines]
  by_cases h : raw.rdropWhile (· ≠ newline) = []
  · exact Or.inl h
  · have hlast := List.rdropWhile_last_not _ raw h
    rw [decide_eq_true_eq, not_not] at hlast
    have hsplit := List.dropLast_append_getLast h
    rw [hlast] at hsplit
    exact Or.inr ⟨_, hsplit.symm⟩

/-- The rest is a fragment. -/
private theorem iterCompleteLines_take_endOfLines (raw : Bytes) :
    iterCompleteLines (raw.take (endOfLines raw)) = iterCompleteLines raw := by
  have hraw : raw.take (endOfLines raw) ++ raw.rtakeWhile (· ≠ newline) = raw := by
    rw [take_endOfLines]
    exact List.rdropWhile_append_rtakeWhile ..
  have hnot : newline ∉ raw.rtakeWhile (· ≠ newline) := fun h => by
    simpa using List.mem_rtakeWhile_imp h
  have happend := iterCompleteLines_append (closed_take_endOfLines raw)
    (raw.rtakeWhile (· ≠ newline))
  rwa [iterCompleteLines_of_not_mem hnot, List.append_nil, hraw, eq_comm] at happend

private theorem endOfLines_append {a : Bytes} (h : Closed a) (b : Bytes) :
    endOfLines (a ++ b) = a.length + endOfLines b := by
  have ha : a.rdropWhile (· ≠ newline) = a := by
    rcases h with rfl | ⟨front, rfl⟩
    · rfl
    · exact List.rdropWhile_concat_neg _ _ _ (by simp)
  induction b using List.reverseRecOn with
  | nil =>
    rw [List.append_nil, endOfLines, ha]
    rfl
  | append_singleton b c ih =>
    rw [← List.append_assoc, endOfLines, endOfLines]
    by_cases hc : c = newline
    · rw [List.rdropWhile_concat_neg _ _ _ (by simp [hc]),
        List.rdropWhile_concat_neg _ _ _ (by simp [hc])]
      simp
    · rw [List.rdropWhile_concat_pos _ _ _ (by simp [hc]),
        List.rdropWhile_concat_pos _ _ _ (by simp [hc])]
      exact ih

private theorem length_bytesBefore {raw : Bytes} {k : Nat} (hk : k ≤ raw.length) :
    (bytesBefore raw k).length = k - (k - tailAnchorBytes) := by
  rw [bytesBefore, List.length_drop, List.length_take, Nat.min_eq_left hk]

/-- The bytes before an offset, from those before an earlier one and what comes behind it. -/
private theorem anchorAt_bytesBefore {raw : Bytes} {k l : Nat} (hk : k ≤ raw.length)
    (hl : k ≤ l) : anchorAt (bytesBefore raw k) (raw.drop k) k l = bytesBefore raw l := by
  have hjoin : bytesBefore raw k ++ raw.drop k = raw.drop (k - tailAnchorBytes) := by
    rw [bytesBefore]
    conv_rhs => rw [← List.take_append_drop k raw]
    rw [List.drop_append_of_le_length (by rw [List.length_take]; omega)]
  rw [anchorAt, hjoin, length_bytesBefore hk, bytesBefore, bytesBefore, List.take_drop,
    List.drop_drop]
  have hstop : k - tailAnchorBytes + (k - (k - tailAnchorBytes) + (l - k)) = l := by omega
  have hstart : k - tailAnchorBytes + (k - (k - tailAnchorBytes) + (l - k) - tailAnchorBytes) =
      l - tailAnchorBytes := by
    simp only [tailAnchorBytes]
    omega
  rw [hstop, hstart]

/-! ### The family under the operations -/

section Family

variable {name : Text} {s : Sink}

private theorem family_of_live {raw : Bytes} (h : s.dir.get name = some raw) :
    family name s = rotatedMembers name s ++ [⟨name, raw⟩] := by
  rw [family, discoverFamily, List.map_append, h]
  rfl

private theorem rotatedEntries_set_self (dir : Table Text Bytes) (raw : Bytes) :
    rotatedEntries name (dir.set name raw) = rotatedEntries name dir := by
  have hself : ((generation name name).map fun g => (g, name, raw)) = none := by
    rw [generation_self]
    rfl
  rw [rotatedEntries, rotatedEntries]
  change (Table.setEntries dir.entries name raw).filterMap _ = _
  unfold Table.setEntries
  split_ifs
  · rw [List.filterMap_map]
    refine List.filterMap_congr fun e _ => ?_
    rw [Function.comp_apply]
    split_ifs with he
    · rw [he, generation_self]
      rfl
    · rfl
  · rw [List.filterMap_append, List.filterMap_cons, hself]
    exact List.append_nil _

/-- An append leaves the rotated files alone. -/
private theorem rotatedMembers_append (bytes : Bytes) (mtime : Nat) :
    rotatedMembers name (s.append name bytes mtime) = rotatedMembers name s := by
  rw [rotatedMembers, rotatedMembers, rotatedFiles, rotatedFiles, Sink.append,
    rotatedEntries_set_self]

private theorem mem_rotatedNames {n : Text} :
    n ∈ rotatedNames name s ↔ (s.dir.get n).isSome ∧ (generation name n).isSome := by
  rw [rotatedNames, rotatedMembers, List.map_map, List.mem_map]
  constructor
  · rintro ⟨e, he, rfl⟩
    obtain ⟨hget, hgen⟩ := mem_rotatedFiles.mp he
    exact ⟨Option.isSome_of_mem hget, hgen⟩
  · rintro ⟨hget, hgen⟩
    obtain ⟨raw, hraw⟩ := Option.isSome_iff_exists.mp hget
    exact ⟨(n, raw), mem_rotatedFiles.mpr ⟨hraw, hgen⟩, rfl⟩

end Family

/-! ### What is remembered -/

/-- The remembered fold is the clean fold of a family the sink had, and the sink has only been
appended to since unless its generations changed. -/
structure Describes (name : Text) (s : Sink) (e : FoldEntry) : Prop where
  folded : ∃ before raw₀, readMembers (before ++ [⟨name, raw₀⟩]) = .ok (e.events, []) ∧
    e = entryOf e.events e.rotated e.mtime raw₀ ∧
    (rotatedNames name s = e.rotated → rotatedMembers name s = before ∧
      ∃ raw, s.dir.get name = some raw ∧ raw₀ <+: raw ∧ (s.mtime = e.mtime → raw = raw₀))
  known : e.mtime ∈ s.used
  listed : ∀ n ∈ e.rotated, n ≠ name ∧ (s.dir.get n).isSome
  same : (s.dir.get name).isSome → s.mtime = e.mtime → rotatedNames name s = e.rotated

/-- The invariant of a run. -/
structure Coherent (name : Text) (s : Sink) : Prop where
  current : (s.dir.get name).isSome → s.mtime ∈ s.used
  describes : ∀ e, s.cache = some e → Describes name s e

/-- Nothing is remembered of an empty sink. -/
theorem coherent_empty (name : Text) : Coherent name Sink.empty :=
  ⟨(fun h => nomatch h), fun _ he => nomatch he⟩

section Steps

variable {name : Text} {s : Sink}

/-- A clean fold of the sink as it stands describes it. -/
private theorem describes_entryOf {events : List TouchEvent} {raw : Bytes}
    (hcur : (s.dir.get name).isSome → s.mtime ∈ s.used) (hraw : s.dir.get name = some raw)
    (hread : readMembers (family name s) = .ok (events, [])) :
    Describes name s (entryOf events (rotatedNames name s) s.mtime raw) where
  folded := ⟨rotatedMembers name s, raw, by rw [← family_of_live hraw]; exact hread, rfl,
    fun _ => ⟨rfl, raw, hraw, List.prefix_refl raw, fun _ => rfl⟩⟩
  known := hcur (by rw [hraw]; rfl)
  listed := fun n hn => by
    obtain ⟨hget, hgen⟩ := mem_rotatedNames.mp hn
    refine ⟨?_, hget⟩
    rintro rfl
    rw [generation_self] at hgen
    cases hgen
  same := fun _ _ => rfl

private theorem coherent_append (h : Coherent name s) {bytes : Bytes} {mtime : Nat}
    (hnew : mtime ∉ s.used) : Coherent name (s.append name bytes mtime) where
  current := fun _ => List.mem_cons_self
  describes := fun e he => by
    obtain ⟨⟨before, raw₀, hread, heq, hcurrent⟩, hknown, hlisted, -⟩ := h.describes e he
    have hmtime : mtime ≠ e.mtime := fun heq => hnew (heq ▸ hknown)
    refine ⟨⟨before, raw₀, hread, heq, fun hnames => ?_⟩, List.mem_cons_of_mem _ hknown,
      fun n hn => ⟨(hlisted n hn).1, ?_⟩, fun _ hm => absurd hm hmtime⟩
    · rw [rotatedNames, rotatedMembers_append] at hnames
      obtain ⟨hmem, raw, hraw, hpre, -⟩ := hcurrent hnames
      refine ⟨by rw [rotatedMembers_append]; exact hmem, raw ++ bytes, ?_,
        hpre.trans (List.prefix_append ..), fun hm => absurd hm hmtime⟩
      rw [Sink.append, hraw]
      exact Table.get_set_self ..
    · rw [Sink.append, Table.get_set, if_neg (hlisted n hn).1]
      exact (hlisted n hn).2

private theorem coherent_rename (h : Coherent name s) (hne : name ≠ []) (hnl : '\n' ∉ name)
    {raw : Bytes} {ts pid seq : Nat}
    (hfresh : s.dir.get (rotatedName name ts pid seq) = none) :
    Coherent name (s.rename name raw (rotatedName name ts pid seq)) := by
  have hlive : (s.rename name raw (rotatedName name ts pid seq)).dir.get name = none := by
    rw [Sink.rename, Table.get_set, if_neg (Ne.symm (rotatedName_ne_self name ts pid seq)), Table.get_erase,
      if_pos rfl]
  refine ⟨fun hsome => ?_, fun e he => ?_⟩
  · rw [hlive] at hsome
    cases hsome
  · obtain ⟨⟨before, raw₀, hread, heq, -⟩, hknown, hlisted, -⟩ := h.describes e he
    refine ⟨⟨before, raw₀, hread, heq, fun hnames => ?_⟩, hknown, fun n hn => ?_, fun hsome => ?_⟩
    · -- the new generation is listed now, and was not there when the fold was made
      exfalso
      have hmem : rotatedName name ts pid seq ∈
          rotatedNames name (s.rename name raw (rotatedName name ts pid seq)) := by
        rw [mem_rotatedNames, Sink.rename, Table.get_set_self, generation_rotatedName hne hnl]
        exact ⟨rfl, rfl⟩
      rw [hnames] at hmem
      have hold := (hlisted _ hmem).2
      rw [hfresh] at hold
      cases hold
    · obtain ⟨hn, hget⟩ := hlisted n hn
      refine ⟨hn, ?_⟩
      rw [Sink.rename, Table.get_set, Table.get_erase, if_neg hn]
      split_ifs
      · rfl
      · exact hget
    · rw [hlive] at hsome
      cases hsome

private theorem readAnew_fst : (readAnew name s).1 = readStream (family name s) := by
  rw [readAnew, readWhole, readStream]
  cases readMembers (family name s) <;> rfl

/-- Without a remembered fold the whole family is read. -/
theorem read_of_cache_none (h : s.cache = none) :
    (read name s).1 = readStream (family name s) := by
  unfold read
  rw [h]
  exact readAnew_fst

/-- The whole read remembers what describes the sink. -/
private theorem describes_readAnew (h : Coherent name s) :
    ∀ e, (readAnew name s).2 = some e → Describes name s e := by
  rw [readAnew, readWhole]
  cases hread : readMembers (family name s) with
  | error e => exact h.describes
  | ok x =>
    obtain ⟨events, reasons⟩ := x
    intro e he
    change (if reasons.isEmpty then _ else none).or s.cache = some e at he
    split_ifs at he with hclean
    · obtain rfl := List.isEmpty_iff.mp hclean
      cases hraw : s.dir.get name with
      | none =>
        rw [hraw] at he
        exact h.describes e he
      | some raw =>
        rw [hraw] at he
        obtain rfl := Option.some.inj he
        exact describes_entryOf h.current hraw hread
    · exact h.describes e he

/-- A clean read of a family is one of its rotated files and one of its live file. -/
private theorem readMembers_live {before : List Member} {raw : Bytes} {events : List TouchEvent}
    (h : readMembers (before ++ [⟨name, raw⟩]) = .ok (events, [])) :
    ∃ old live, readMembers before = .ok (old, []) ∧ raw.length ≤ maxSinkBytes ∧
      decodeLines name (iterCompleteLines raw) = .ok (live, []) ∧ events = old ++ live := by
  rw [readMembers_append, readMembers_singleton] at h
  cases hbefore : readMembers before with
  | error e =>
    rw [hbefore] at h
    cases h
  | ok x =>
    obtain ⟨old, reasons⟩ := x
    rw [hbefore] at h
    cases hlive : readMember ⟨name, raw⟩ with
    | error e =>
      rw [hlive] at h
      cases h
    | ok y =>
      obtain ⟨live, reasons'⟩ := y
      rw [hlive] at h
      obtain ⟨rfl, hreasons⟩ := Prod.mk.inj (Except.ok.inj h)
      obtain ⟨rfl, rfl⟩ := List.append_eq_nil_iff.mp hreasons
      rw [readMember] at hlive
      split_ifs at hlive with hlen
      · exact absurd (Prod.mk.inj (Except.ok.inj hlive)).2 (by simp)
      · exact ⟨old, live, rfl, Nat.le_of_not_lt hlen, hlive, rfl⟩

/-- The files of a family whose live file has grown. -/
private theorem readMembers_grown {before : List Member} {raw₀ raw : Bytes}
    {events : List TouchEvent} (h : readMembers (before ++ [⟨name, raw₀⟩]) = .ok (events, []))
    (hpre : raw₀ <+: raw) (hle : raw.length ≤ maxSinkBytes) :
    readMembers (before ++ [⟨name, raw⟩]) =
      (decodeLines name (iterCompleteLines (raw.drop (endOfLines raw₀)))).map fun x =>
        (events ++ x.1, x.2) := by
  obtain ⟨old, live, hbefore, -, hlive, rfl⟩ := readMembers_live h
  have htake : raw.take (endOfLines raw₀) = raw₀.take (endOfLines raw₀) := by
    obtain ⟨rest, rfl⟩ := hpre
    exact List.take_append_of_le_length (endOfLines_le raw₀)
  have hlines : iterCompleteLines raw =
      iterCompleteLines raw₀ ++ iterCompleteLines (raw.drop (endOfLines raw₀)) := by
    conv_lhs => rw [← List.take_append_drop (endOfLines raw₀) raw]
    rw [htake, iterCompleteLines_append (closed_take_endOfLines raw₀),
      iterCompleteLines_take_endOfLines]
  rw [readMembers_append, readMembers_singleton, hbefore, readMember, if_neg (by simpa using hle),
    hlines, decodeLines_append, hlive]
  cases decodeLines name (iterCompleteLines (raw.drop (endOfLines raw₀))) with
  | error e => rfl
  | ok x => simp [Except.bind, Except.map]

/-- A fold that describes the sink is gone on with: the bytes before its end are the old ones. -/
private theorem foldGrown_of_describes {cached : FoldEntry} {raw : Bytes}
    (h : Describes name s cached) (hraw : s.dir.get name = some raw)
    (hsize : ¬ raw.length ≤ cached.consumed) (hnames : rotatedNames name s = cached.rotated) :
    foldGrown name s cached raw =
      match (iterCompleteLines (raw.drop cached.consumed)).mapM decodeLine with
      | .error .malformed => .ok none
      | .error .uncaught => .error .uncaught
      | .ok newEvents => .ok (some (foldResult (cached.events ++ newEvents) [],
          entryOf (cached.events ++ newEvents) (rotatedNames name s) s.mtime raw)) := by
  obtain ⟨before, raw₀, -, heq, hcurrent⟩ := h.folded
  obtain ⟨-, raw', hraw', hpre, -⟩ := hcurrent hnames
  obtain rfl : raw' = raw := Option.some.inj (hraw'.symm.trans hraw)
  have hconsumed : cached.consumed = endOfLines raw₀ := by rw [heq]; rfl
  have hk : cached.consumed ≤ raw'.length := by
    rw [hconsumed]
    exact (endOfLines_le raw₀).trans hpre.length_le
  -- the file has only grown since the fold
  have htake : raw'.take cached.consumed = raw₀.take (endOfLines raw₀) := by
    obtain ⟨rest, rfl⟩ := hpre
    rw [hconsumed]
    exact List.take_append_of_le_length (endOfLines_le raw₀)
  have hanchor : cached.anchor = bytesBefore raw' cached.consumed := by
    rw [bytesBefore, htake, hconsumed, heq]
    rfl
  have hlen : cached.anchor.length = cached.consumed - (cached.consumed - tailAnchorBytes) := by
    rw [hanchor, length_bytesBefore hk]
  -- so the anchor stands where it was, and the new lines behind it
  have hprefix : (raw'.drop (cached.consumed - cached.anchor.length)).take cached.anchor.length =
      cached.anchor := by
    have hstart : cached.consumed - cached.anchor.length = cached.consumed - tailAnchorBytes := by
      omega
    rw [List.take_drop, hstart]
    conv_rhs => rw [hanchor, bytesBefore]
    congr 2
    omega
  have htail : (raw'.drop (cached.consumed - cached.anchor.length)).drop cached.anchor.length =
      raw'.drop cached.consumed := by
    rw [List.drop_drop, Nat.sub_add_cancel (by omega)]
  -- what was folded ends with a line, so no line is cut in two
  have hclosed : Closed (raw'.take cached.consumed) := by
    rw [htake]
    exact closed_take_endOfLines raw₀
  have hend : cached.consumed + endOfLines (raw'.drop cached.consumed) = endOfLines raw' := by
    conv_rhs => rw [← List.take_append_drop cached.consumed raw']
    rw [endOfLines_append hclosed, List.length_take, Nat.min_eq_left hk]
  have hlength : cached.consumed - cached.anchor.length +
      (raw'.drop (cached.consumed - cached.anchor.length)).length = raw'.length := by
    rw [List.length_drop]
    omega
  have hanchorEq : anchorAt cached.anchor (raw'.drop cached.consumed) cached.consumed
      (endOfLines raw') = bytesBefore raw' (endOfLines raw') := by
    rw [hanchor]
    exact anchorAt_bytesBefore hk (by omega)
  rw [foldGrown, if_neg hsize, if_neg (not_not.mpr hnames)]
  dsimp only
  rw [htail, if_neg (not_not.mpr hprefix), hend, hlength, hanchorEq, ← hnames]
  rfl

/-- What the fold of a grown file within the bound says. -/
private theorem foldGrown_spec {cached : FoldEntry} {raw : Bytes}
    (hcur : (s.dir.get name).isSome → s.mtime ∈ s.used) (h : Describes name s cached)
    (hraw : s.dir.get name = some raw) (hle : raw.length ≤ maxSinkBytes) :
    (∀ e, foldGrown name s cached raw = .error e → readStream (family name s) = .error e) ∧
      ∀ r entry, foldGrown name s cached raw = .ok (some (r, entry)) →
        readStream (family name s) = .ok r ∧ Describes name s entry := by
  by_cases hsize : raw.length ≤ cached.consumed
  · rw [foldGrown, if_pos hsize]
    exact ⟨(fun _ he => nomatch he), fun _ _ he => nomatch he⟩
  by_cases hnames : rotatedNames name s = cached.rotated
  swap
  · rw [foldGrown, if_neg hsize, if_pos hnames]
    exact ⟨(fun _ he => nomatch he), fun _ _ he => nomatch he⟩
  rw [foldGrown_of_describes h hraw hsize hnames]
  obtain ⟨before, raw₀, hread, heq, hcurrent⟩ := h.folded
  obtain ⟨rfl, raw', hraw', hpre, -⟩ := hcurrent hnames
  obtain rfl : raw' = raw := Option.some.inj (hraw'.symm.trans hraw)
  have hconsumed : cached.consumed = endOfLines raw₀ := by rw [heq]; rfl
  have hwhole := readMembers_grown hread hpre hle
  rw [← family_of_live hraw, ← hconsumed] at hwhole
  cases hmap : (iterCompleteLines (raw'.drop cached.consumed)).mapM decodeLine with
  | error e =>
    cases e with
    | malformed => exact ⟨(fun _ he => nomatch he), fun _ _ he => nomatch he⟩
    | uncaught =>
      refine ⟨fun e he => ?_, fun _ _ he => nomatch he⟩
      rw [readStream, hwhole, decodeLines_of_mapM_uncaught name hmap]
      exact congrArg Except.error (Except.error.inj he)
  | ok newEvents =>
    refine ⟨(fun _ he => nomatch he), fun r entry he => ?_⟩
    obtain ⟨rfl, rfl⟩ := Prod.mk.inj (Option.some.inj (Except.ok.inj he))
    rw [decodeLines_of_mapM_ok name hmap] at hwhole
    exact ⟨by rw [readStream, hwhole]; rfl, describes_entryOf hcur hraw hwhole⟩

/-- A read within the bound says what the whole read says, and remembers what describes the
sink. -/
theorem read_spec (h : Coherent name s) (hbound : WithinBound name s .read) :
    (read name s).1 = readStream (family name s) ∧
      ∀ e, (read name s).2 = some e → Describes name s e := by
  unfold read
  split
  · next cached raw hcache hraw =>
    have hdesc := h.describes cached hcache
    have hle : raw.length ≤ maxSinkBytes := by
      rcases hbound with hnone | hle
      · rw [hcache] at hnone
        cases hnone
      · exact hle raw hraw
    split_ifs with hhit
    · -- the signature is that of the fold: nothing was written since
      obtain ⟨before, raw₀, hread, heq, hcurrent⟩ := hdesc.folded
      obtain ⟨rfl, raw', hraw', -, hsame⟩ :=
        hcurrent (hdesc.same (by rw [hraw]; rfl) hhit.2.symm)
      obtain rfl : raw' = raw := Option.some.inj (hraw'.symm.trans hraw)
      rw [← hsame hhit.2.symm, ← family_of_live hraw] at hread
      refine ⟨?_, h.describes⟩
      rw [readStream, hread, heq]
      rfl
    · obtain ⟨herror, hok⟩ := foldGrown_spec h.current hdesc hraw hle
      split
      · next e he => exact ⟨(herror e he).symm, h.describes⟩
      · next r entry he =>
        obtain ⟨hr, hentry⟩ := hok r entry he
        refine ⟨hr.symm, fun e he => ?_⟩
        obtain rfl := Option.some.inj he
        exact hentry
      · exact ⟨readAnew_fst, describes_readAnew h⟩
  · exact ⟨readAnew_fst, describes_readAnew h⟩

/-- Every operation within the bound keeps the remembered fold coherent. -/
theorem coherent_step (hne : name ≠ []) (hnl : '\n' ∉ name) {op : SinkOp} {s' : Sink}
    (hbound : WithinBound name s op) (h : Coherent name s) (hstep : sinkStep name s op = some s') :
    Coherent name s' := by
  cases op with
  | append bytes mtime =>
    rw [sinkStep] at hstep
    split_ifs at hstep with hnew
    obtain rfl := Option.some.inj hstep
    exact coherent_append h hnew
  | rotate ts pid seq =>
    rw [sinkStep] at hstep
    split at hstep
    · split_ifs at hstep with hfresh
      obtain rfl := Option.some.inj hstep
      exact coherent_rename h hne hnl (by simpa using hfresh)
    · cases hstep
  | evict =>
    obtain rfl := Option.some.inj hstep
    exact ⟨h.current, fun _ he => by cases he⟩
  | read =>
    obtain rfl := Option.some.inj hstep
    have hspec := (read_spec h hbound).2
    exact ⟨h.current, fun e he => by
      obtain ⟨hfolded, hknown, hlisted, hsame⟩ := hspec e he
      exact ⟨hfolded, hknown, hlisted, hsame⟩⟩

end Steps

/-- Every read of a run within the bound says what a read says that remembers nothing. -/
theorem incremental_fold {name : Text} (hne : name ≠ []) (hnl : '\n' ∉ name) {ops : List SinkOp}
    {s : Sink} (hbound : Machine.Along (sinkStep name) (WithinBound name) Sink.empty (ops ++ [.read]))
    (hrun : Machine.run (sinkStep name) Sink.empty ops = some s) :
    (read name s).1 = (read name { s with cache := none }).1 := by
  have hcoherent : Coherent name s :=
    Machine.run_invariant_along (fun _ _ _ => coherent_step hne hnl) hbound.of_prefix
      (coherent_empty name) hrun
  have hread : WithinBound name s .read := (hbound.of_append hrun).1
  rw [(read_spec hcoherent hread).1, read_of_cache_none rfl]
  rfl

/-! ### A fold beyond the bound -/

/-- A line of the record. -/
def someLine : Bytes :=
  lineOf (recordOf [0x73] none Verb.touch.code [0x70] ['1', '.', '0'] none none none)

/-- The event on that line. -/
def someEvent : TouchEvent :=
  ⟨1, .touch, ['1', '.', '0'], [0x73], none, [0x70], none, none, none⟩

private theorem decodeLine_someLine : decodeLine someLine = .ok someEvent := by decide

private theorem length_someLine : someLine.length = 62 := by decide

private theorem iterCompleteLines_someLine : iterCompleteLines someLine = [someLine] := by
  decide

private theorem endOfLines_someLine : endOfLines someLine = 62 := by decide

private theorem closed_someLine : Closed someLine := by
  have h := closed_take_endOfLines someLine
  rwa [endOfLines_someLine, ← length_someLine, List.take_length] at h

private theorem sinkStep_append {name : Text} {s : Sink} {bytes : Bytes} {mtime : Nat}
    (h : mtime ∉ s.used) :
    sinkStep name s (.append bytes mtime) = some (s.append name bytes mtime) :=
  if_neg h

/-- One line is appended, the sink is read, and more is appended. -/
def appendReadAppend (bytes : Bytes) : List SinkOp :=
  [.append someLine 0, .read, .append bytes 1]

/-- The sink with one line, after a read. -/
private def readOnce : Sink :=
  { Sink.empty.append recordFilename someLine 0 with
    cache := (read recordFilename (Sink.empty.append recordFilename someLine 0)).2 }

private theorem run_appendReadAppend (bytes : Bytes) :
    Machine.run (sinkStep recordFilename) Sink.empty (appendReadAppend bytes) =
      some (readOnce.append recordFilename bytes 1) := by
  rw [appendReadAppend, Machine.run_cons, sinkStep_append List.not_mem_nil, Option.bind_some,
    Machine.run_cons, sinkStep, Option.bind_some, Machine.run_cons]
  exact congrArg (Option.bind · _) (sinkStep_append (s := readOnce) (by decide))

private theorem mapM_replicate (n : Nat) :
    (List.replicate n someLine).mapM decodeLine = .ok (List.replicate n someEvent) := by
  induction n with
  | zero => rfl
  | succ n ih =>
    rw [List.replicate_succ, List.mapM_cons, decodeLine_someLine, ih]
    rfl

private theorem get_readOnce : readOnce.dir.get recordFilename = some someLine :=
  Table.get_set_self ..

private theorem get_readOnce_append (bytes : Bytes) :
    (readOnce.append recordFilename bytes 1).dir.get recordFilename = some (someLine ++ bytes) := by
  rw [Sink.append, get_readOnce]
  exact Table.get_set_self ..

private theorem rotatedMembers_readOnce : rotatedMembers recordFilename readOnce = [] := by
  rw [readOnce]
  exact (rotatedMembers_append someLine 0).trans (by
    rw [rotatedMembers, rotatedFiles, rotatedEntries, Sink.empty]
    simp [EmptyCollection.emptyCollection])

private theorem along_appendReadAppend {bytes : Bytes} (h : 62 + bytes.length ≤ maxSinkBytes) :
    Machine.Along (sinkStep recordFilename) (WithinBound recordFilename) Sink.empty
      (appendReadAppend bytes ++ [.read]) := by
  refine ⟨trivial, fun t ht => ⟨Or.inl ?_, fun u hu => ⟨trivial, fun v hv =>
    ⟨Or.inr fun raw hraw => ?_, fun _ _ => trivial⟩⟩⟩⟩
  · rw [sinkStep_append List.not_mem_nil] at ht
    rw [← Option.some.inj ht]
    rfl
  · rw [sinkStep_append List.not_mem_nil] at ht
    obtain rfl := Option.some.inj ht
    obtain rfl : readOnce = u := Option.some.inj hu
    rw [sinkStep_append (by decide)] at hv
    obtain rfl := Option.some.inj hv
    rw [get_readOnce_append] at hraw
    rw [← Option.some.inj hraw, List.length_append, length_someLine]
    exact h

theorem incremental_fold_someLine : ∃ s,
    Machine.run (sinkStep recordFilename) Sink.empty (appendReadAppend someLine) = some s ∧
      (read recordFilename s).1 = (read recordFilename { s with cache := none }).1 :=
  ⟨_, run_appendReadAppend someLine, incremental_fold recordFilename_ne_nil
    newline_not_mem_recordFilename (along_appendReadAppend (by rw [length_someLine]; decide))
    (run_appendReadAppend someLine)⟩

/-- Whether a read is degraded. -/
def degradedOf (r : Except DecodeError StreamRead × Option FoldEntry) : Option Bool :=
  r.1.toOption.map StreamRead.degraded

/-- The first read remembers the line it met. -/
private theorem cache_readOnce : readOnce.cache = some (entryOf [someEvent] [] 0 someLine) := by
  have hcoherent : Coherent recordFilename (Sink.empty.append recordFilename someLine 0) :=
    coherent_append (coherent_empty _) List.not_mem_nil
  have hread : readMembers (family recordFilename (Sink.empty.append recordFilename someLine 0)) =
      .ok ([someEvent], []) := by
    have hfamily := family_of_live get_readOnce
    rw [rotatedMembers_readOnce] at hfamily
    refine (congrArg readMembers hfamily).trans ?_
    rw [List.nil_append, readMembers_singleton, readMember, if_neg (by
      rw [length_someLine]
      decide), iterCompleteLines_someLine]
    exact decodeLines_of_mapM_ok _ (mapM_replicate 1)
  have hnames : rotatedNames recordFilename (Sink.empty.append recordFilename someLine 0) = [] :=
    congrArg (List.map Member.name) rotatedMembers_readOnce
  have hget : (Sink.empty.append recordFilename someLine 0).dir.get recordFilename =
      some someLine := get_readOnce
  change (readAnew recordFilename (Sink.empty.append recordFilename someLine 0)).2 = _
  rw [readAnew, readWhole, hread, hnames, hget]
  rfl

/-- A file that grew beyond the bound of a whole read is still read on from the fold. -/
private theorem degradedOf_grown {n : Nat} (hn : maxSinkBytes < 62 * n) :
    degradedOf (read recordFilename
      (readOnce.append recordFilename (List.replicate n someLine).flatten 1)) = some false ∧
    degradedOf (read recordFilename
      { readOnce.append recordFilename (List.replicate n someLine).flatten 1 with
        cache := none }) = some true := by
  have hlines : iterCompleteLines (List.replicate n someLine).flatten =
      List.replicate n someLine := by
    refine iterCompleteLines_flatten fun l hl => ?_
    rw [(List.mem_replicate.mp hl).2]
    exact ⟨closed_someLine, iterCompleteLines_someLine⟩
  have hlength : (List.replicate n someLine).flatten.length = 62 * n := by
    rw [List.length_flatten, List.map_replicate, List.sum_replicate_nat, length_someLine,
      Nat.mul_comm]
  have hget := get_readOnce_append (List.replicate n someLine).flatten
  have hraw : (someLine ++ (List.replicate n someLine).flatten).length = 62 + 62 * n := by
    rw [List.length_append, length_someLine, hlength]
  -- the cache holds the fold of the first line
  have hcoherent : Coherent recordFilename
      (readOnce.append recordFilename (List.replicate n someLine).flatten 1) := by
    refine Machine.run_invariant_along (fun _ _ _ => coherent_step recordFilename_ne_nil
      newline_not_mem_recordFilename) ?_ (coherent_empty _) (run_appendReadAppend _)
    refine ⟨trivial, fun t ht => ⟨Or.inl ?_, fun u _ => ⟨trivial, fun _ _ => trivial⟩⟩⟩
    rw [sinkStep_append List.not_mem_nil] at ht
    rw [← Option.some.inj ht]
    rfl
  have hmembers : rotatedMembers recordFilename
      (readOnce.append recordFilename (List.replicate n someLine).flatten 1) = [] := by
    rw [rotatedMembers_append, rotatedMembers_readOnce]
  refine ⟨?_, ?_⟩
  · have hcache : (readOnce.append recordFilename (List.replicate n someLine).flatten 1).cache =
        some (entryOf [someEvent] [] 0 someLine) := cache_readOnce
    -- a grown file is read from where the cached fold ends, whatever its length
    have hgrown := foldGrown_of_describes (hcoherent.describes _ hcache) hget
      (by
        change ¬ _ ≤ endOfLines someLine
        have hpos : 0 < maxSinkBytes := by decide
        rw [hraw, endOfLines_someLine]
        omega)
      (congrArg (List.map Member.name) hmembers)
    have hconsumed : (entryOf [someEvent] [] 0 someLine).consumed = someLine.length := by
      rw [length_someLine]
      exact endOfLines_someLine
    rw [hconsumed, List.drop_left, hlines, mapM_replicate] at hgrown
    rw [degradedOf, read, hcache, hget]
    dsimp only
    rw [if_neg fun h => Nat.zero_ne_one h.2, hgrown]
    rfl
  · have hfamily := family_of_live hget
    rw [hmembers, List.nil_append] at hfamily
    -- without a cache it is too large to be read
    have hread : readMembers (family recordFilename
        (readOnce.append recordFilename (List.replicate n someLine).flatten 1)) =
        .ok ([], [.unreadable recordFilename]) := by
      rw [hfamily, readMembers_singleton, readMember, if_pos]
      change maxSinkBytes < (someLine ++ (List.replicate n someLine).flatten).length
      omega
    rw [degradedOf, read_of_cache_none rfl]
    change (readStream (family recordFilename
      (readOnce.append recordFilename (List.replicate n someLine).flatten 1))).toOption.map _ = _
    rw [readStream, hread]
    rfl

/-- The remembered fold hides that a whole read would refuse the file. -/
theorem incremental_fold_oversized : ∃ s,
    Machine.run (sinkStep recordFilename) Sink.empty
      (appendReadAppend (List.replicate 1100000 someLine).flatten) = some s ∧
    degradedOf (read recordFilename s) = some false ∧
    degradedOf (read recordFilename { s with cache := none }) = some true :=
  ⟨_, run_appendReadAppend _, degradedOf_grown (by decide)⟩

end Touch

end CoordinatorCore
