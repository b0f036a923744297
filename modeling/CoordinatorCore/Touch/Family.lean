import CoordinatorCore.Machine.Table
import CoordinatorCore.Json

/-!
# The files of a sink

A sink that has grown too large is renamed out of the way. `rotatedName` is the name it gets and
`generation` reads such a name back; `discoverFamily` lists the files of a sink, the oldest
generation first and the live file last.

A name is read back as it was made when the clock did not stand before the epoch
(`generation_rotatedName`).
-/

namespace CoordinatorCore

open Text

namespace Touch

/-! ### Names -/

/-- `RECORD_FILENAME`. -/
def recordFilename : Text := "touch-record.jsonl".toList

theorem recordFilename_ne_nil : recordFilename ≠ [] := by decide

theorem newline_not_mem_recordFilename : '\n' ∉ recordFilename := by decide

/-- What stands between the name of the sink and the key of the generation. -/
def rotatedMark : Text := ['.', 'r', 'o', 't', 'a', 't', 'e', 'd', '-']

/-- The end of a rotated name. -/
def rotatedEnd : Text := ['.', 'j', 's', 'o', 'n', 'l']

/-- The name a rotation gives a sink. -/
def rotatedName (name : Text) (ts : Int) (pid seq : Nat) : Text :=
  name ++ (rotatedMark ++ (Json.writeInt ts ++ '-' :: (Nat.toDigits 10 pid ++
    '-' :: (Nat.toDigits 10 seq ++ rotatedEnd))))

/-- `\d`. -/
def isDecimal (c : Char) : Bool := isDigit (asciiDigit c)

/-- `\d+`, with its value. -/
def scanDecimal (t : Text) : Option (Nat × Text) :=
  if t.takeWhile isDecimal = [] then none
  else some (digitsValue ((t.takeWhile isDecimal).map asciiDigit), t.dropWhile isDecimal)

/-- `(?:-(?P<seq>\d+))?`; a missing counter counts as zero. -/
def scanSeq (t : Text) : Nat × Text :=
  match t with
  | '-' :: t =>
    match scanDecimal t with
    | some (seq, r) => (seq, r)
    | none => (0, '-' :: t)
  | t => (0, t)

/-- `$` also matches in front of a last newline. -/
def atEnd (t : Text) : Bool := t = [] || t = ['\n']

/-- The part of `_ROTATED_SUFFIX_RE` behind the mark. -/
def scanKey (t : Text) : Option (Nat × Nat × Nat) :=
  match scanDecimal t with
  | some (ts, '-' :: t) =>
    (scanDecimal t).bind fun (pid, t) =>
      match stripPrefix? rotatedEnd (scanSeq t).2 with
      | some rest => if atEnd rest then some (ts, pid, (scanSeq t).1) else none
      | none => none
  | _ => none

/-- The key of a rotated generation of the sink: `_ROTATED_SUFFIX_RE` matches, and its base is the
name of the sink. There is no mark among the parts of a key, so no other base can match. -/
def generation (name entry : Text) : Option (Nat × Nat × Nat) :=
  if name = [] ∨ '\n' ∈ name then none
  else (stripPrefix? (name ++ rotatedMark) entry).bind scanKey

/-! ### The listing -/

/-- The order of generations. -/
def generationLe (a b : Nat × Nat × Nat) : Bool :=
  a.1 < b.1 || (a.1 == b.1 && (a.2.1 < b.2.1 || (a.2.1 == b.2.1 && a.2.2 ≤ b.2.2)))

variable {β : Type*}

/-- The rotated files of a sink with their keys, as the directory lists them. -/
def rotatedEntries (name : Text) (dir : Table Text β) : List ((Nat × Nat × Nat) × Text × β) :=
  dir.entries.filterMap fun e => (generation name e.1).map fun g => (g, e)

/-- The rotated files of a sink, the oldest generation first. -/
def rotatedFiles (name : Text) (dir : Table Text β) : List (Text × β) :=
  ((rotatedEntries name dir).mergeSort fun a b => generationLe a.1 b.1).map Prod.snd

/-- `discover_family`. -/
def discoverFamily (name : Text) (dir : Table Text β) : List (Text × β) :=
  rotatedFiles name dir ++ ((dir.get name).map fun b => (name, b)).toList

/-! ### What a name says -/

private theorem scanDecimal_toDigits (n : Nat) {t : Text}
    (ht : ∀ c, t.head? = some c → isDecimal c = false) :
    scanDecimal (Nat.toDigits 10 n ++ t) = some (n, t) := by
  have hall : ∀ c ∈ Nat.toDigits 10 n, isDecimal c = true := fun c hc => by
    rw [isDecimal, asciiDigit_of_isDigit (isDigit_of_mem_toDigits hc)]
    exact isDigit_of_mem_toDigits hc
  have hrest : t.takeWhile isDecimal = [] ∧ t.dropWhile isDecimal = t := by
    cases t with
    | nil => exact ⟨rfl, rfl⟩
    | cons c t =>
      have hc : ¬ isDecimal c = true := by simp [ht c rfl]
      exact ⟨List.takeWhile_cons_of_neg hc, List.dropWhile_cons_of_neg hc⟩
  have htake : (Nat.toDigits 10 n ++ t).takeWhile isDecimal = Nat.toDigits 10 n := by
    rw [List.takeWhile_append_of_pos hall, hrest.1, List.append_nil]
  have hdrop : (Nat.toDigits 10 n ++ t).dropWhile isDecimal = t := by
    rw [List.dropWhile_append_of_pos hall, hrest.2]
  have hmap : (Nat.toDigits 10 n).map asciiDigit = Nat.toDigits 10 n :=
    (List.map_congr_left fun c hc => asciiDigit_of_isDigit (isDigit_of_mem_toDigits hc)).trans
      (List.map_id _)
  rw [scanDecimal, htake, hdrop, hmap, if_neg Nat.toDigits_ne_nil, digitsValue_toDigits]

private theorem not_isDecimal_minus : isDecimal '-' = false := by decide

private theorem not_isDecimal_point : isDecimal '.' = false := by decide

/-- A name made after the epoch is read back. -/
theorem generation_rotatedName {name : Text} (hne : name ≠ []) (hnl : '\n' ∉ name)
    (ts pid seq : Nat) : generation name (rotatedName name ts pid seq) = some (ts, pid, seq) := by
  have hminus : ∀ (t : Text) c, ('-' :: t).head? = some c → isDecimal c = false := by
    rintro t c hc
    obtain rfl := Option.some.inj hc
    exact not_isDecimal_minus
  have hpoint : ∀ c, rotatedEnd.head? = some c → isDecimal c = false := by
    rintro c hc
    obtain rfl := Option.some.inj hc
    exact not_isDecimal_point
  have hts : Json.writeInt ts = Nat.toDigits 10 ts := by simp [Json.writeInt]
  have hstrip : stripPrefix? (name ++ rotatedMark) (rotatedName name ts pid seq) =
      some (Nat.toDigits 10 ts ++ '-' :: (Nat.toDigits 10 pid ++
        '-' :: (Nat.toDigits 10 seq ++ rotatedEnd))) := by
    rw [stripPrefix?_eq_some, rotatedName, hts, List.append_assoc]
  have hseq : scanSeq ('-' :: (Nat.toDigits 10 seq ++ rotatedEnd)) = (seq, rotatedEnd) := by
    rw [scanSeq, scanDecimal_toDigits seq hpoint]
  have hend : stripPrefix? rotatedEnd rotatedEnd = some [] := by
    rw [stripPrefix?_eq_some, List.append_nil]
  rw [generation, if_neg (not_or.mpr ⟨hne, hnl⟩), hstrip, Option.bind_some, scanKey,
    scanDecimal_toDigits ts (hminus _)]
  change (scanDecimal _).bind _ = _
  rw [scanDecimal_toDigits pid (hminus _), Option.bind_some]
  dsimp only
  rw [hseq]
  dsimp only
  rw [hend]
  rfl

/-- Two generations have two names. -/
theorem rotatedName_inj {name : Text} (hne : name ≠ []) (hnl : '\n' ∉ name)
    {ts pid seq ts' pid' seq' : Nat}
    (h : rotatedName name ts pid seq = rotatedName name ts' pid' seq') :
    (ts, pid, seq) = (ts', pid', seq') := by
  have hgen := generation_rotatedName hne hnl ts pid seq
  rw [h, generation_rotatedName hne hnl] at hgen
  exact (Option.some.inj hgen).symm

/-- The live file is no generation of itself. -/
theorem generation_self (name : Text) : generation name name = none := by
  rw [generation]
  split_ifs
  · rfl
  · cases h : stripPrefix? (name ++ rotatedMark) name with
    | none => rfl
    | some r =>
      exfalso
      have hlen := congrArg List.length (stripPrefix?_eq_some.mp h)
      simp [rotatedMark] at hlen

theorem rotatedName_ne_self (name : Text) (ts : Int) (pid seq : Nat) :
    rotatedName name ts pid seq ≠ name := by
  intro h
  have hlen := congrArg List.length h
  simp [rotatedName, rotatedMark] at hlen

/-! ### What a listing holds -/

theorem mem_rotatedFiles {name : Text} {dir : Table Text β} {e : Text × β} :
    e ∈ rotatedFiles name dir ↔ dir.get e.1 = some e.2 ∧ (generation name e.1).isSome := by
  rw [rotatedFiles, List.mem_map, Table.get_eq_some_iff]
  simp only [List.mem_mergeSort, rotatedEntries, List.mem_filterMap, Option.map_eq_some_iff]
  constructor
  · rintro ⟨x, ⟨e', he', g, hg, rfl⟩, rfl⟩
    exact ⟨he', by rw [hg]; rfl⟩
  · rintro ⟨he, hgen⟩
    obtain ⟨g, hg⟩ := Option.isSome_iff_exists.mp hgen
    exact ⟨(g, e), ⟨e, he, g, hg, rfl⟩, rfl⟩

/-- What is listed is in the directory. -/
theorem get_of_mem_discoverFamily {name : Text} {dir : Table Text β} {e : Text × β}
    (h : e ∈ discoverFamily name dir) : dir.get e.1 = some e.2 := by
  rcases List.mem_append.mp h with h | h
  · exact (mem_rotatedFiles.mp h).1
  · obtain ⟨b, hb, rfl⟩ := Option.map_eq_some_iff.mp (Option.mem_toList.mp h)
    exact hb

end Touch

end CoordinatorCore
