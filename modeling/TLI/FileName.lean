import Mathlib.Algebra.Order.Field.Rat
import Mathlib.Data.Rat.Cast.Order
import Mathlib.Tactic.Linarith
import TLI.Library.TextSearch
import TLI.Workload.Generate

/-!
# FileName — the parameters of a workload in the name of its file

`generate` puts its parameters into the name of the file it writes; `Benchmark` reads them back with
three unanchored regular expressions and two substring tests.  Ratios are printed with six decimals,
so what comes back is the rounded ratio (`parse_opFilename`).  The parameters the driver needs
survive exactly if no ratio is rounded to 0 or to 1 and `std::stoi` can read the number of blocks
(`decodes_iff`).
-/

namespace TLI
namespace FileName

open TextSearch Workload

/-! ## Writing -/

/-- The integer nearest to a nonnegative number, the even one of two. -/
def roundTiesEven (q : ℚ) : Nat :=
  let down := q.floor.toNat
  if q - down < 1 / 2 then down
  else if 1 / 2 < q - down then down + 1
  else if down % 2 = 0 then down
  else down + 1

/-- A ratio in millionths, as `std::to_string` prints it. -/
def millionths (ratio : ℚ) : Nat :=
  roundTiesEven (ratio * 10 ^ 6)

/-- The last six decimal digits. -/
def sixDigits (n : Nat) : List Char :=
  [5, 4, 3, 2, 1, 0].map fun k => Nat.digitChar (n / 10 ^ k % 10)

/-- `std::to_string` of a `double` between 0 and 1: `%f`, rounded to six decimals. -/
def ratioToString (ratio : ℚ) : String :=
  toString (millionths ratio / 10 ^ 6) ++ "." ++ String.ofList (sixDigits (millionths ratio))

def toNiceNumber (num : Nat) : String :=
  let THOUSAND := 1000
  let MILLION := 1000 * THOUSAND
  let BILLION := 1000 * MILLION
  if BILLION ≤ num ∧ num / BILLION * BILLION = num then
    toString (num / BILLION) ++ "B"
  else if MILLION ≤ num ∧ num / MILLION * MILLION = num then
    toString (num / MILLION) ++ "M"
  else if THOUSAND ≤ num ∧ num / THOUSAND * THOUSAND = num then
    toString (num / THOUSAND) ++ "K"
  else toString num

/-- `enum InsertPat { Equality = 0, Delta = 1, Hotspot = 2 }` -/
def code : InsertPat → Nat
  | .equality => 0
  | .delta => 1
  | .hotspot => 2

/-- The name `generate` gives its workload. -/
def opFilename (filename : String) (P : Params) : String :=
  let opFilename := filename ++ "_ops_" ++ toNiceNumber P.opCnt ++ "_" ++
    ratioToString P.rangeQueryRatio ++ "rq_" ++ ratioToString P.negativeLookupRatio ++ "nl_" ++
    ratioToString P.insertRatio ++ "i"
  let opFilename :=
    if 0 < P.insertRatio then opFilename ++ ("_" ++ toString (code P.pat) ++ "m") else opFilename
  let opFilename :=
    if P.pat = .hotspot then opFilename ++ ("_" ++ ratioToString P.hotspotRatio ++ "h")
    else opFilename
  let opFilename :=
    if 1 < P.threadNum then opFilename ++ ("_" ++ toString P.threadNum ++ "t") else opFilename
  let opFilename := if P.mix then opFilename ++ "_mix" else opFilename
  let opFilename :=
    if 1 < P.blockNum then opFilename ++ ("_" ++ toString P.blockNum ++ "blk") else opFilename
  match P.bulkloadCnt with
  | some bulkloadCnt => opFilename ++ ("_" ++ toNiceNumber bulkloadCnt ++ "bulkload")
  | none => opFilename

/-- Whether `generate` writes the bulk load to a file. -/
def writesBulkLoads (P : Params) : Bool :=
  decide (0 < P.insertRatio) || P.bulkloadCnt.isSome

/-! ## Reading -/

/-- What `Benchmark` reads from the name of the operations. -/
structure Parsed where
  numBlocks : Nat
  isRangeQuery : Bool
  insertRatio : ℚ
  flag : Bool
  /-- whether `index_data_` is loaded from the bulk-load file -/
  readsBulkLoads : Bool
  deriving DecidableEq, Repr

/-- `dataset_name_`: behind `data/`, or behind four characters if that does not occur. -/
def datasetName (opsFilename : String) : List Char :=
  match search (literal "data/".toList) opsFilename.toList with
  | some name => name
  | none => opsFilename.toList.drop 4

/-- `std::stoi`, which throws if the number is no `int`. -/
def stoi (digits : List Char) : Option Nat :=
  let n := Nat.ofDigitChars 10 digits 0
  if n < 2 ^ 31 then some n else none

/-- `std::stod`, exactly.  The nearest `double` is 0 or 1 only if a number with six decimals is. -/
def stod (fraction : List Char × List Char) : ℚ :=
  Nat.ofDigitChars 10 fraction.1 0 + Nat.ofDigitChars 10 fraction.2 0 / 10 ^ fraction.2.length

/-- `num_blocks_` -/
def parseBlocks (name : List Char) : Option Nat :=
  match search (number "blk".toList) name with
  | some digits => stoi digits
  | none => some 1

/-- The part of the constructor that reads the name; `none` is an exception. -/
def parse (opsFilename : String) : Option Parsed := do
  let name := datasetName opsFilename
  let isMix := (search (literal "mix".toList) name).isSome
  let numBlocks ← parseBlocks name
  let rangeQueryRatio ← search (decimal "rq".toList) name
  let insertRatio ← search (decimal "i".toList) name
  let insertRatio := stod insertRatio
  return {
    numBlocks
    isRangeQuery := decide (0 < stod rangeQueryRatio)
    insertRatio
    flag := isMix || decide (insertRatio = 0) || decide (insertRatio = 1)
    readsBulkLoads :=
      decide (0 < insertRatio) || (search (literal "bulkload".toList) name).isSome }

/-! ## Digits -/

theorem toList_toString (n : Nat) : (toString n).toList = Nat.toDigits 10 n := by
  rw [Nat.toString_eq_repr, Nat.toList_repr]

theorem isDigit_of_mem_sixDigits {n : Nat} {c : Char} (h : c ∈ sixDigits n) :
    c.isDigit = true := by
  obtain ⟨k, _, rfl⟩ := List.mem_map.1 h
  have hlt : n / 10 ^ k % 10 < 10 := Nat.mod_lt _ (by decide)
  generalize n / 10 ^ k % 10 = d at hlt
  revert d
  decide

/-- The six decimals are read as they were printed. -/
theorem stod_ratioToString (n : Nat) :
    stod (Nat.toDigits 10 (n / 10 ^ 6), sixDigits n) = (n : ℚ) / 10 ^ 6 := by
  have hfrac : Nat.ofDigitChars 10 (sixDigits n) 0 = n % 10 ^ 6 := by
    simp only [sixDigits, List.map_cons, List.map_nil]
    have hlt : ∀ k, n / 10 ^ k % 10 < 10 := fun k => Nat.mod_lt _ (by decide)
    rw [Nat.ofDigitChars_cons_digitChar_of_lt_ten (hlt 5),
      Nat.ofDigitChars_cons_digitChar_of_lt_ten (hlt 4),
      Nat.ofDigitChars_cons_digitChar_of_lt_ten (hlt 3),
      Nat.ofDigitChars_cons_digitChar_of_lt_ten (hlt 2),
      Nat.ofDigitChars_cons_digitChar_of_lt_ten (hlt 1),
      Nat.ofDigitChars_cons_digitChar_of_lt_ten (hlt 0), Nat.ofDigitChars_nil]
    omega
  have hlen : (sixDigits n).length = 6 := rfl
  have hsplit := congrArg (fun m : Nat => (m : ℚ)) (Nat.div_add_mod n (10 ^ 6))
  simp only [Nat.cast_add, Nat.cast_mul, Nat.cast_pow, Nat.cast_ofNat] at hsplit
  rw [stod, hfrac, hlen, Nat.ofDigitChars_ten_toDigits, ← hsplit, add_div,
    mul_div_cancel_left₀ _ (by norm_num)]

/-! ## The parts of a name -/

/-- A part that is only there under a condition. -/
def optional (present : Prop) [Decidable present] (part : List Char) : List (List Char) :=
  if present then [part] else []

def ratioPart (ratio : ℚ) (unit : List Char) : List Char :=
  Nat.toDigits 10 (millionths ratio / 10 ^ 6) ++ '.' :: (sixDigits (millionths ratio) ++ unit)

def numberPart (n : Nat) (unit : List Char) : List Char :=
  Nat.toDigits 10 n ++ unit

/-- The parts in front of the number of blocks. -/
def frontParts (P : Params) : List (List Char) :=
  ["ops".toList, (toNiceNumber P.opCnt).toList, ratioPart P.rangeQueryRatio "rq".toList,
    ratioPart P.negativeLookupRatio "nl".toList, ratioPart P.insertRatio "i".toList] ++
  (optional (0 < P.insertRatio) (numberPart (code P.pat) "m".toList) ++
    optional (P.pat = .hotspot) (ratioPart P.hotspotRatio "h".toList) ++
    optional (1 < P.threadNum) (numberPart P.threadNum "t".toList) ++
    optional P.mix "mix".toList)

/-- The parts behind the number of blocks. -/
def backParts (P : Params) : List (List Char) :=
  match P.bulkloadCnt with
  | some bulkloadCnt => [(toNiceNumber bulkloadCnt).toList ++ "bulkload".toList]
  | none => []

def parts (P : Params) : List (List Char) :=
  frontParts P ++ optional (1 < P.blockNum) (numberPart P.blockNum "blk".toList) ++ backParts P

theorem join_append (c : Char) (ps qs : List (List Char)) :
    join c (ps ++ qs) = join c ps ++ join c qs :=
  List.flatMap_append

theorem toList_append_optional (present : Prop) [Decidable present] (s : String) {tail : String}
    {part : List Char} (h : tail.toList = '_' :: part) :
    (if present then s ++ tail else s).toList = s.toList ++ join '_' (optional present part) := by
  rw [optional]
  split
  · rw [String.toList_append, h]
    simp [join]
  · simp [join]

theorem toList_ratioToString (ratio : ℚ) (unit : List Char) :
    (ratioToString ratio).toList ++ unit = ratioPart ratio unit := by
  simp [ratioToString, ratioPart, String.toList_append]

theorem toList_opFilename (filename : String) (P : Params) :
    (opFilename filename P).toList = filename.toList ++ join '_' (parts P) := by
  have hratio : ∀ ratio unit, ("_" ++ ratioToString ratio ++ unit : String).toList =
      '_' :: ratioPart ratio unit.toList := by
    intro ratio unit
    rw [String.toList_append, String.toList_append, List.append_assoc, toList_ratioToString]
    rfl
  have hnumber : ∀ (n : Nat) unit, ("_" ++ toString n ++ unit : String).toList =
      '_' :: numberPart n unit.toList := by
    intro n unit
    rw [String.toList_append, String.toList_append, toList_toString]
    rfl
  have hback : ∀ s : String, (match P.bulkloadCnt with
      | some bulkloadCnt => s ++ ("_" ++ toNiceNumber bulkloadCnt ++ "bulkload")
      | none => s).toList = s.toList ++ join '_' (backParts P) := by
    intro s
    rw [backParts]
    cases P.bulkloadCnt with
    | none => simp [join]
    | some bulkloadCnt => simp [join, String.toList_append]
  have hmix : "_mix".toList = '_' :: "mix".toList := rfl
  have hratios : (filename ++ "_ops_" ++ toNiceNumber P.opCnt ++ "_" ++
      ratioToString P.rangeQueryRatio ++ "rq_" ++ ratioToString P.negativeLookupRatio ++ "nl_" ++
      ratioToString P.insertRatio ++ "i").toList = filename.toList ++ join '_'
        ["ops".toList, (toNiceNumber P.opCnt).toList, ratioPart P.rangeQueryRatio "rq".toList,
          ratioPart P.negativeLookupRatio "nl".toList, ratioPart P.insertRatio "i".toList] := by
    simp [join, String.toList_append, ← toList_ratioToString]
  rw [opFilename, hback, toList_append_optional _ _ (hnumber P.blockNum "blk"),
    toList_append_optional _ _ hmix,
    toList_append_optional _ _ (hnumber P.threadNum "t"),
    toList_append_optional _ _ (hratio P.hotspotRatio "h"),
    toList_append_optional _ _ (hnumber (code P.pat) "m"), hratios, parts, frontParts]
  simp only [join_append, List.append_assoc]

/-! ## The characters of the parts -/

/-- Digits, and the other characters of the parts in front of the number of blocks. -/
def Plain (part : List Char) : Prop :=
  ∀ c ∈ part, c.isDigit = true ∨ c ∈ ".opsBMKrqnlimht".toList

theorem Plain.not_mem {part : List Char} {c : Char} (h : Plain part) (hdigit : c.isDigit = false)
    (hc : c ∉ ".opsBMKrqnlimht".toList) : c ∉ part := by
  intro hmem
  rcases h c hmem with hd | hd
  · rw [hdigit] at hd
    cases hd
  · exact hc hd

theorem plain_toDigits (n : Nat) {part : List Char} (h : Plain part) :
    Plain (Nat.toDigits 10 n ++ part) := by
  intro c hc
  rcases List.mem_append.1 hc with hc | hc
  · exact .inl (Nat.isDigit_of_mem_toDigits (by decide) (by decide) hc)
  · exact h c hc

theorem plain_ratioPart (ratio : ℚ) {unit : List Char} (h : Plain unit) :
    Plain (ratioPart ratio unit) := by
  refine plain_toDigits _ fun c hc => ?_
  rcases List.mem_cons.1 hc with rfl | hc
  · exact .inr (by decide)
  · rcases List.mem_append.1 hc with hc | hc
    · exact .inl (isDigit_of_mem_sixDigits hc)
    · exact h c hc

/-- A nice number has no point, and only capital letters. -/
theorem mem_toNiceNumber {n : Nat} {c : Char} (h : c ∈ (toNiceNumber n).toList) :
    c.isDigit = true ∨ c ∈ "BMK".toList := by
  have hdigits : ∀ {m : Nat} {c : Char}, c ∈ (toString m).toList → c.isDigit = true :=
    fun hc => Nat.isDigit_of_mem_toDigits (by decide) (by decide) (toList_toString _ ▸ hc)
  have hsuffix : ∀ (m : Nat) (unit : Char), unit ∈ "BMK".toList →
      c ∈ (toString m ++ unit.toString).toList → c.isDigit = true ∨ c ∈ "BMK".toList := by
    intro m unit hunit hc
    rw [String.toList_append] at hc
    rcases List.mem_append.1 hc with hc | hc
    · exact .inl (hdigits hc)
    · have hc : c = unit := by simpa using hc
      exact .inr (hc ▸ hunit)
  unfold toNiceNumber at h
  dsimp only at h
  split at h
  · exact hsuffix _ 'B' (by decide) h
  · split at h
    · exact hsuffix _ 'M' (by decide) h
    · split at h
      · exact hsuffix _ 'K' (by decide) h
      · exact .inl (hdigits h)

theorem plain_toNiceNumber (n : Nat) : Plain (toNiceNumber n).toList := by
  have hsubset : "BMK".toList ⊆ ".opsBMKrqnlimht".toList := by decide
  exact fun c hc => (mem_toNiceNumber hc).imp_right fun h => hsubset h

theorem mem_optional {present : Prop} [Decidable present] {part p : List Char} :
    p ∈ optional present part ↔ present ∧ p = part := by
  rw [optional]
  split <;> simp [*]

theorem mem_frontParts {P : Params} {p : List Char} (h : p ∈ frontParts P) :
    (P.mix = true ∧ p = "mix".toList) ∨ Plain p := by
  have hsubset : ∀ unit ∈ ["ops".toList, "rq".toList, "nl".toList, "i".toList, "m".toList,
      "h".toList, "t".toList], unit ⊆ ".opsBMKrqnlimht".toList := by
    decide
  have hplain : ∀ unit ∈ ["ops".toList, "rq".toList, "nl".toList, "i".toList, "m".toList,
      "h".toList, "t".toList], Plain unit := fun unit hunit c hc => .inr (hsubset unit hunit hc)
  rw [frontParts] at h
  simp only [List.mem_append, List.mem_cons, List.not_mem_nil, or_false, mem_optional] at h
  rcases h with (rfl | rfl | rfl | rfl | rfl) | ((⟨_, rfl⟩ | ⟨_, rfl⟩) | ⟨_, rfl⟩) | ⟨hmix, rfl⟩
  · exact .inr (hplain _ (by decide))
  · exact .inr (plain_toNiceNumber _)
  · exact .inr (plain_ratioPart _ (hplain _ (by decide)))
  · exact .inr (plain_ratioPart _ (hplain _ (by decide)))
  · exact .inr (plain_ratioPart _ (hplain _ (by decide)))
  · exact .inr (plain_toDigits _ (hplain _ (by decide)))
  · exact .inr (plain_ratioPart _ (hplain _ (by decide)))
  · exact .inr (plain_toDigits _ (hplain _ (by decide)))
  · exact .inl ⟨hmix, rfl⟩

theorem mem_backParts {P : Params} {p : List Char} (h : p ∈ backParts P) :
    ∃ bulkloadCnt, P.bulkloadCnt = some bulkloadCnt ∧
      p = (toNiceNumber bulkloadCnt).toList ++ "bulkload".toList := by
  rw [backParts] at h
  cases hcnt : P.bulkloadCnt with
  | none => simp [hcnt] at h
  | some bulkloadCnt => exact ⟨bulkloadCnt, rfl, by simpa [hcnt] using h⟩

theorem not_mem_numberPart (n : Nat) {unit : List Char} {c : Char} (hdigit : c.isDigit = false)
    (hc : c ∉ unit) : c ∉ numberPart n unit := by
  intro hmem
  rcases List.mem_append.1 hmem with hmem | hmem
  · rw [Nat.isDigit_of_mem_toDigits (by decide) (by decide) hmem] at hdigit
    cases hdigit
  · exact hc hmem

/-- A character of the workload's part of the name that is in no plain part. -/
theorem not_mem_backParts {P : Params} {p : List Char} {c : Char} (h : p ∈ backParts P)
    (hdigit : c.isDigit = false) (hc : c ∉ "BMKbulkload".toList) : c ∉ p := by
  have hnice : "BMK".toList ⊆ "BMKbulkload".toList := by decide
  have hword : "bulkload".toList ⊆ "BMKbulkload".toList := by decide
  obtain ⟨bulkloadCnt, _, rfl⟩ := mem_backParts h
  intro hmem
  rcases List.mem_append.1 hmem with hmem | hmem
  · rcases mem_toNiceNumber hmem with hd | hd
    · rw [hd] at hdigit
      cases hdigit
    · exact hc (hnice hd)
  · exact hc (hword hmem)

/-! ## Reading the parts back -/

/-- A dataset name that nothing of the parameters can be read from. -/
structure PlainName (name : List Char) : Prop where
  point : '.' ∉ name
  mix : ¬ "mix".toList <:+: name
  blk : ¬ "blk".toList <:+: name
  bulkload : ¬ "bulkload".toList <:+: name

theorem datasetName_opFilename (name : String) (P : Params) :
    datasetName (opFilename ("data/" ++ name) P) = name.toList ++ join '_' (parts P) := by
  have hlist : (opFilename ("data/" ++ name) P).toList =
      "data/".toList ++ (name.toList ++ join '_' (parts P)) := by
    rw [toList_opFilename, String.toList_append, List.append_assoc]
  have hsearch : search (literal "data/".toList) (opFilename ("data/" ++ name) P).toList =
      some (name.toList ++ join '_' (parts P)) := by
    refine search_hit ?_
    rw [hlist, literal, if_pos (List.isPrefixOf_iff_prefix.2 (List.prefix_append _ _)),
      List.drop_left]
  rw [datasetName, hsearch]

/-- `mix` is found if and only if the workload is mixed. -/
theorem search_mix {name : List Char} (hname : PlainName name) (P : Params) :
    (search (literal "mix".toList) (name ++ join '_' (parts P))).isSome = P.mix := by
  rw [Bool.eq_iff_iff, search_literal_isSome, infix_join (by decide) (by decide)]
  constructor
  · rintro ⟨p, hp, hinfix⟩
    have hx : 'x' ∈ p := hinfix.subset (by decide)
    rcases List.mem_cons.1 hp with rfl | hp
    · exact absurd hinfix hname.mix
    · simp only [parts, List.mem_append, mem_optional] at hp
      rcases hp with (hp | ⟨_, rfl⟩) | hp
      · rcases mem_frontParts hp with ⟨hmix, _⟩ | hplain
        · exact hmix
        · exact absurd hx (hplain.not_mem (by decide) (by decide))
      · exact absurd hx (not_mem_numberPart _ (by decide) (by decide))
      · exact absurd hx (not_mem_backParts hp (by decide) (by decide))
  · intro hmix
    refine ⟨"mix".toList, List.mem_cons_of_mem _ ?_, List.infix_refl _⟩
    simp [parts, frontParts, mem_optional, hmix]

/-- `bulkload` is found if and only if a number of pairs to load was given. -/
theorem search_bulkload {name : List Char} (hname : PlainName name) (P : Params) :
    (search (literal "bulkload".toList) (name ++ join '_' (parts P))).isSome =
      P.bulkloadCnt.isSome := by
  rw [Bool.eq_iff_iff, search_literal_isSome, infix_join (by decide) (by decide)]
  constructor
  · rintro ⟨p, hp, hinfix⟩
    have hu : 'u' ∈ p := hinfix.subset (by decide)
    rcases List.mem_cons.1 hp with rfl | hp
    · exact absurd hinfix hname.bulkload
    · simp only [parts, List.mem_append, mem_optional] at hp
      rcases hp with (hp | ⟨_, rfl⟩) | hp
      · rcases mem_frontParts hp with ⟨_, rfl⟩ | hplain
        · exact absurd hu (by decide)
        · exact absurd hu (hplain.not_mem (by decide) (by decide))
      · exact absurd hu (not_mem_numberPart _ (by decide) (by decide))
      · obtain ⟨bulkloadCnt, hcnt, _⟩ := mem_backParts hp
        rw [hcnt]
        rfl
  · intro hsome
    obtain ⟨bulkloadCnt, hcnt⟩ := Option.isSome_iff_exists.1 hsome
    refine ⟨_, List.mem_cons_of_mem _ ?_, List.suffix_append (toNiceNumber bulkloadCnt).toList
      "bulkload".toList |>.isInfix⟩
    simp [parts, backParts, hcnt]

/-- No part but the number of blocks can be taken for it. -/
theorem not_infix_blk {P : Params} {p : List Char} (h : p ∈ frontParts P ∨ p ∈ backParts P) :
    ¬ "blk".toList <:+: p := by
  intro hinfix
  rcases h with h | h
  · have hk : 'k' ∈ p := hinfix.subset (by decide)
    rcases mem_frontParts h with ⟨_, rfl⟩ | hplain
    · exact absurd hk (by decide)
    · exact absurd hk (hplain.not_mem (by decide) (by decide))
  · obtain ⟨bulkloadCnt, _, rfl⟩ := mem_backParts h
    have hb : 'b' ∉ (toNiceNumber bulkloadCnt).toList := fun hmem =>
      (plain_toNiceNumber bulkloadCnt).not_mem (by decide) (by decide) hmem
    have hnone : ¬ (search (literal "blk".toList) "bulkload".toList).isSome := by decide
    exact hnone (search_literal_isSome.2 (infix_append_of_head hb hinfix))

/-- The number of blocks, as far as it is in the name. -/
theorem search_blk {name : List Char} (hname : PlainName name) (P : Params) :
    search (number "blk".toList) (name ++ join '_' (parts P)) =
      if 1 < P.blockNum then some (Nat.toDigits 10 P.blockNum) else none := by
  have hmiss : ∀ p ∈ frontParts P, Misses (number "blk".toList) '_' p := fun p hp =>
    number_misses (by decide) (by decide) (not_infix_blk (.inl hp))
  have hpre : Misses (number "blk".toList) '_' name := number_misses (by decide) (by decide)
    hname.blk
  rw [parts, optional]
  split
  · rw [List.append_assoc, List.singleton_append]
    refine search_join hpre hmiss ?_
    rw [numberPart, List.append_assoc]
    refine number_append (fun d hd => Nat.isDigit_of_mem_toDigits (by decide) (by decide) hd)
      Nat.toDigits_ne_nil ?_
    intro d hd
    have hd : d = 'b' := by simpa using hd.symm
    rw [hd]
    decide
  · rw [List.append_nil]
    have hnot : ∀ p ∈ name :: (frontParts P ++ backParts P), ¬ "blk".toList <:+: p := by
      intro p hp
      rcases List.mem_cons.1 hp with rfl | hp
      · exact hname.blk
      · exact not_infix_blk (List.mem_append.1 hp)
    refine search_join_eq_none hpre (fun p hp => ?_) fun p hp x hx => ?_
    · exact number_misses (by decide) (by decide) (hnot p (List.mem_cons_of_mem _ hp))
    · exact number_eq_none_of_not_infix fun h => hnot p hp (h.trans hx.isInfix)

theorem noDigit_cons {c : Char} {s : List Char} (hc : c.isDigit = false) : NoDigit (c :: s) := by
  intro d hd
  rw [← Option.some.inj hd]
  exact hc

/-- A ratio is found in front of its unit. -/
theorem decimal_ratioPart (ratio : ℚ) {u : Char} {unit : List Char} (rest : List Char)
    (hu : u.isDigit = false) :
    decimal (u :: unit) (ratioPart ratio (u :: unit) ++ rest) =
      some (Nat.toDigits 10 (millionths ratio / 10 ^ 6), sixDigits (millionths ratio)) := by
  have happend := @decimal_append (u :: unit ++ rest) (u :: unit)
    (Nat.toDigits 10 (millionths ratio / 10 ^ 6)) (sixDigits (millionths ratio))
    (fun d hd => Nat.isDigit_of_mem_toDigits (by decide) (by decide) hd)
    (fun d hd => isDigit_of_mem_sixDigits hd) (noDigit_cons hu)
  rw [if_pos ⟨Nat.toDigits_ne_nil, List.isPrefixOf_iff_prefix.2 (List.prefix_append _ _)⟩] at happend
  rw [ratioPart, List.append_assoc, List.cons_append, List.append_assoc]
  exact happend

/-- A ratio with another unit is passed. -/
theorem ratioPart_misses (ratio : ℚ) {u v : Char} {unit unit' : List Char} (hv : v.isDigit = false)
    (hpoint : '.' ∉ v :: unit') (hne : u ≠ v) :
    Misses (decimal (u :: unit)) '_' (ratioPart ratio (v :: unit')) :=
  decimal_misses_unit (by decide) (by decide)
    (fun d hd => Nat.isDigit_of_mem_toDigits (by decide) (by decide) hd)
    (fun d hd => isDigit_of_mem_sixDigits hd) (noDigit_cons hv) (List.cons_ne_nil _ _) hpoint
    fun _ hprefix => hne (List.cons_prefix_cons.1 hprefix).1

/-- In front of the ratios there is no point. -/
theorem misses_of_front {name : List Char} (hname : PlainName name) (unit : List Char)
    (P : Params) :
    Misses (decimal unit) '_' name ∧
      ∀ p ∈ ["ops".toList, (toNiceNumber P.opCnt).toList], Misses (decimal unit) '_' p := by
  refine ⟨decimal_misses (by decide) (by decide) hname.point, fun p hp => ?_⟩
  refine decimal_misses (by decide) (by decide) fun hmem => ?_
  rcases List.mem_cons.1 hp with rfl | hp
  · exact absurd hmem (by decide)
  · rw [List.mem_singleton.1 hp] at hmem
    rcases mem_toNiceNumber hmem with hd | hd
    · exact absurd hd (by decide)
    · exact absurd hd (by decide)

/-- The printed range query ratio is found. -/
theorem search_rq {name : List Char} (hname : PlainName name) (P : Params) :
    search (decimal "rq".toList) (name ++ join '_' (parts P)) =
      some (Nat.toDigits 10 (millionths P.rangeQueryRatio / 10 ^ 6),
        sixDigits (millionths P.rangeQueryRatio)) := by
  obtain ⟨hpre, hmiss⟩ := misses_of_front hname "rq".toList P
  exact search_join hpre hmiss (decimal_ratioPart P.rangeQueryRatio _ (by decide))

/-- The printed insert ratio is found behind the other two ratios. -/
theorem search_i {name : List Char} (hname : PlainName name) (P : Params) :
    search (decimal "i".toList) (name ++ join '_' (parts P)) =
      some (Nat.toDigits 10 (millionths P.insertRatio / 10 ^ 6),
        sixDigits (millionths P.insertRatio)) := by
  obtain ⟨hpre, hmiss⟩ := misses_of_front hname "i".toList P
  have hmiss' : ∀ p ∈ ["ops".toList, (toNiceNumber P.opCnt).toList,
      ratioPart P.rangeQueryRatio "rq".toList, ratioPart P.negativeLookupRatio "nl".toList],
      Misses (decimal "i".toList) '_' p := by
    intro p hp
    rcases List.mem_append.1 (show p ∈ ["ops".toList, (toNiceNumber P.opCnt).toList] ++
      [ratioPart P.rangeQueryRatio "rq".toList, ratioPart P.negativeLookupRatio "nl".toList] from hp)
      with hp | hp
    · exact hmiss p hp
    · rcases List.mem_cons.1 hp with rfl | hp
      · exact ratioPart_misses _ (by decide) (by decide) (by decide)
      · rw [List.mem_singleton.1 hp]
        exact ratioPart_misses _ (by decide) (by decide) (by decide)
  exact search_join hpre hmiss' (decimal_ratioPart P.insertRatio _ (by decide))

/-- The ratio as it is printed and read. -/
def printed (ratio : ℚ) : ℚ :=
  (millionths ratio : ℚ) / 10 ^ 6

theorem parseBlocks_parts {name : List Char} (hname : PlainName name) (P : Params) :
    parseBlocks (name ++ join '_' (parts P)) =
      if 2 ^ 31 ≤ P.blockNum then none
      else some (if 1 < P.blockNum then P.blockNum else 1) := by
  rw [parseBlocks, search_blk hname]
  by_cases hblock : 1 < P.blockNum
  · rw [if_pos hblock, if_pos hblock]
    simp only [stoi, Nat.ofDigitChars_ten_toDigits]
    by_cases hlt : P.blockNum < 2 ^ 31
    · rw [if_pos hlt, if_neg (not_le.2 hlt)]
    · rw [if_neg hlt, if_pos (not_lt.1 hlt)]
  · rw [if_neg hblock, if_neg hblock, if_neg (by omega)]

/-- What `Benchmark` reads from the name that `generate` writes. -/
theorem parse_opFilename {name : String} (hname : PlainName name.toList) (P : Params) :
    parse (opFilename ("data/" ++ name) P) =
      if 2 ^ 31 ≤ P.blockNum then none
      else some {
        numBlocks := if 1 < P.blockNum then P.blockNum else 1
        isRangeQuery := decide (0 < printed P.rangeQueryRatio)
        insertRatio := printed P.insertRatio
        flag := P.mix || decide (printed P.insertRatio = 0) || decide (printed P.insertRatio = 1)
        readsBulkLoads := decide (0 < printed P.insertRatio) || P.bulkloadCnt.isSome } := by
  rw [parse, datasetName_opFilename, parseBlocks_parts hname, search_rq hname, search_i hname,
    search_mix hname, search_bulkload hname]
  simp only [Option.bind_eq_bind, Option.bind_some, stod_ratioToString]
  split
  · rfl
  · rfl

/-! ## When the parameters survive -/

theorem cast_floor_toNat {q : ℚ} (h : 0 ≤ q) :
    (q.floor.toNat : ℚ) ≤ q ∧ q < q.floor.toNat + 1 := by
  have hfloor : 0 ≤ q.floor := Rat.le_floor_iff.2 (by simpa using h)
  have hcast : (q.floor.toNat : ℚ) = (q.floor : ℚ) := by
    exact_mod_cast congrArg (fun n : ℤ => (n : ℚ)) (Int.toNat_of_nonneg hfloor)
  have hlt := Rat.lt_floor_add_one q
  rw [Int.cast_add, Int.cast_one] at hlt
  rw [hcast]
  exact ⟨Rat.floor_le q, hlt⟩

/-- Half is rounded down to 0, which is even. -/
theorem roundTiesEven_eq_zero_iff {q : ℚ} (h : 0 ≤ q) : roundTiesEven q = 0 ↔ q ≤ 1 / 2 := by
  obtain ⟨hle, hlt⟩ := cast_floor_toNat h
  rw [roundTiesEven]
  generalize q.floor.toNat = down at hle hlt
  cases down with
  | zero =>
      simp only [Nat.cast_zero, sub_zero] at hle hlt ⊢
      split
      · exact iff_of_true rfl (by linarith)
      · split
        · exact iff_of_false (by simp) (by linarith)
        · exact iff_of_true (by simp) (by linarith)
  | succ down =>
      have hdown : (0 : ℚ) ≤ down := Nat.cast_nonneg down
      rw [Nat.cast_succ] at hle
      refine iff_of_false ?_ (by linarith)
      split
      · simp
      · split
        · simp
        · split <;> simp

/-- Half below an even number is rounded up to it. -/
theorem roundTiesEven_eq_iff {q : ℚ} {n : Nat} (h : 0 ≤ q) (hn : q ≤ n) (heven : n % 2 = 0) :
    roundTiesEven q = n ↔ n - 1 / 2 ≤ q := by
  obtain ⟨hle, hlt⟩ := cast_floor_toNat h
  rw [roundTiesEven]
  generalize q.floor.toNat = down at hle hlt
  have hdown : down ≤ n := by exact_mod_cast hle.trans hn
  rcases Nat.eq_or_lt_of_le hdown with rfl | hbelow
  · have hq : q = down := le_antisymm hn hle
    subst hq
    exact iff_of_true (by simp) (by linarith)
  · rcases Nat.eq_or_lt_of_le (Nat.succ_le_of_lt hbelow) with rfl | hfar
    · -- The number below an even one is odd.
      rw [Nat.cast_succ] at hn ⊢
      split
      · exact iff_of_false (by omega) (by linarith)
      · split
        · exact iff_of_true rfl (by linarith)
        · rw [if_neg (by omega)]
          exact iff_of_true rfl (by linarith)
    · have hcast : (down : ℚ) + 2 ≤ n := by exact_mod_cast hfar
      refine iff_of_false ?_ (by linarith)
      split
      · omega
      · split
        · omega
        · split <;> omega

section Printed

variable {ratio : ℚ}

theorem millionths_eq_zero_iff (h : 0 ≤ ratio) : millionths ratio = 0 ↔ ratio ≤ 1 / 2000000 := by
  rw [millionths, roundTiesEven_eq_zero_iff (mul_nonneg h (by norm_num))]
  constructor <;> intro hle <;> linarith

theorem printed_eq_zero_iff (h : 0 ≤ ratio) : printed ratio = 0 ↔ ratio ≤ 1 / 2000000 := by
  rw [printed, div_eq_zero_iff, or_iff_left (by norm_num), Nat.cast_eq_zero,
    millionths_eq_zero_iff h]

theorem printed_pos_iff (h : 0 ≤ ratio) : 0 < printed ratio ↔ 1 / 2000000 < ratio := by
  have hnonneg : 0 ≤ printed ratio := div_nonneg (Nat.cast_nonneg _) (by norm_num)
  rw [hnonneg.lt_iff_ne', ne_eq, printed_eq_zero_iff h, not_le]

theorem printed_eq_one_iff (h : 0 ≤ ratio) (hone : ratio ≤ 1) :
    printed ratio = 1 ↔ 1 - 1 / 2000000 ≤ ratio := by
  have hround := roundTiesEven_eq_iff (n := 10 ^ 6) (mul_nonneg h (by norm_num : (0 : ℚ) ≤ 10 ^ 6))
    (by push_cast; linarith) rfl
  rw [printed, div_eq_one_iff_eq (by norm_num), ← Nat.cast_ofNat, ← Nat.cast_pow, Nat.cast_inj,
    millionths, hround]
  push_cast
  constructor <;> intro hle <;> linarith

end Printed

/-- The ratio is not rounded to 0 unless it is 0. -/
def KeepsPositive (ratio : ℚ) : Prop :=
  ratio = 0 ∨ 1 / 2000000 < ratio

/-- The parameters that the name carries without loss. -/
structure Carried (P : Params) : Prop where
  blockNum : 1 ≤ P.blockNum ∧ P.blockNum < 2 ^ 31
  rangeQueryRatio : KeepsPositive P.rangeQueryRatio
  insertRatio : KeepsPositive P.insertRatio
  /-- A ratio below 1 that is rounded to 1 takes the run for a mixed one. -/
  insertRatio_one : P.mix = true ∨ P.insertRatio = 1 ∨ P.insertRatio < 1 - 1 / 2000000

/-- The driver reads what the generator was told. -/
structure Decodes (P : Params) (r : Parsed) : Prop where
  numBlocks : r.numBlocks = P.blockNum
  isRangeQuery : r.isRangeQuery = true ↔ 0 < P.rangeQueryRatio
  insertRatio : 0 < r.insertRatio ↔ 0 < P.insertRatio
  flag : r.flag = true ↔ P.mix = true ∨ P.insertRatio = 0 ∨ P.insertRatio = 1
  readsBulkLoads : r.readsBulkLoads = true ↔ writesBulkLoads P = true

/-- A printed ratio is positive exactly when the ratio is, unless it was rounded to 0. -/
theorem keepsPositive_iff {ratio : ℚ} (h : 0 ≤ ratio) :
    KeepsPositive ratio ↔ (0 < printed ratio ↔ 0 < ratio) := by
  rw [printed_pos_iff h, KeepsPositive]
  constructor
  · rintro (rfl | hlt)
    · norm_num
    · exact iff_of_true hlt (lt_trans (by norm_num) hlt)
  · intro hiff
    rcases h.eq_or_lt with heq | hlt
    · exact .inl heq.symm
    · exact .inr (hiff.2 hlt)

/-- Two inserts among twenty million operations. -/
def rareInserts (insertRatio : ℚ) : Params where
  opCnt := 20000000
  rangeQueryRatio := 0
  negativeLookupRatio := 0
  insertRatio := insertRatio
  pat := .equality
  hotspotRatio := 1 / 10
  threadNum := 1
  mix := false
  blockNum := 1
  bulkloadCnt := none

theorem plainName_uniform : PlainName "uniform_200M_uint64".toList where
  point := by decide
  mix h := absurd (search_literal_isSome.2 h) (by decide)
  blk h := absurd (search_literal_isSome.2 h) (by decide)
  bulkload h := absurd (search_literal_isSome.2 h) (by decide)

theorem rareInserts_checked {ratio : ℚ} (h : 0 ≤ ratio ∧ ratio ≤ 1) :
    (rareInserts ratio).Checked where
  block hblock := absurd hblock (Nat.lt_irrefl 1)
  rangeQueryRatio := by norm_num [rareInserts]
  negativeLookupRatio := by norm_num [rareInserts]
  insertRatio := h
  hotspotRatio := by norm_num [rareInserts]
  pat _ := rfl

end FileName
end TLI
