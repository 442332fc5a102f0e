import HotStuffRs.Types.RawValidatorSet
import Mathlib.Data.ZMod.Defs

/-
The bytes of a validator set.

Which byte arrays are keys is a parameter, as the check belongs to the signature library.  A
conversion to bytes is always undone; a conversion from bytes loses the keys that fail the check
instead of failing itself.
-/

namespace HotStuffRs

abbrev VerifyingKeyBytes := VerifyingKey

/-- A key of the signature library: a byte array that passes its check. -/
structure CheckedKey (valid : VerifyingKeyBytes → Bool) where
  toBytes : VerifyingKeyBytes
  passes : valid toBytes

structure SignatureError where

/-- A validator set whose keys are byte arrays that may not be keys. -/
abbrev ValidatorSetBytes := RawValidatorSet VerifyingKeyBytes

variable {valid : VerifyingKeyBytes → Bool}

theorem CheckedKey.toBytes_injective :
    Function.Injective (toBytes : CheckedKey valid → VerifyingKeyBytes) := by
  intro a b h
  cases a
  cases b
  cases h
  rfl

instance : LinearOrder (CheckedKey valid) :=
  LinearOrder.lift' CheckedKey.toBytes CheckedKey.toBytes_injective

/-- `VerifyingKey::from_bytes`. -/
def fromBytes (valid : VerifyingKeyBytes → Bool) (bytes : VerifyingKeyBytes) :
    Except SignatureError (CheckedKey valid) :=
  if h : valid bytes then .ok ⟨bytes, h⟩ else .error {}

/-- `try_for_each(convert_and_insert)`: what it inserted before it ended, and how it ended. -/
def convertAndInsert (valid : VerifyingKeyBytes → Bool) :
    List (VerifyingKeyBytes × Power) → HashMap (CheckedKey valid) Power →
      HashMap (CheckedKey valid) Power × Except SignatureError Unit
  | [], newPowers => (newPowers, .ok ())
  | (k, v) :: rest, newPowers =>
    match fromBytes valid k with
    | .ok pk => convertAndInsert valid rest (newPowers.insert pk v)
    | .error e => (newPowers, .error e)

/-- `ValidatorSet::try_from`, for the order in which the hash map is iterated.  How the insertion
ended is ignored. -/
def tryFrom (valid : VerifyingKeyBytes → Bool) (value : ValidatorSetBytes)
    (entries : List (VerifyingKeyBytes × Power)) :
    Except SignatureError (RawValidatorSet (CheckedKey valid)) :=
  .ok {
    validators := value.validators.filterMap fun bytes => (fromBytes valid bytes).toOption
    powers := (convertAndInsert valid entries ∅).1 }

/-- `Into<ValidatorSetBytes>`, for the order in which the hash map is iterated. -/
def intoBytes (vs : RawValidatorSet (CheckedKey valid))
    (entries : List (CheckedKey valid × Power)) : ValidatorSetBytes where
  validators := vs.validators.map CheckedKey.toBytes
  powers := entries.foldl (fun newPowers entry => newPowers.insert entry.1.toBytes entry.2) ∅

/-- Every key passes the check. -/
structure AllValid (valid : VerifyingKeyBytes → Bool) (value : ValidatorSetBytes) : Prop where
  validators : ∀ bytes ∈ value.validators, valid bytes
  powers : ∀ bytes ∈ value.powers, valid bytes

namespace RawValidatorSet

/-- The key vector and the map have the same keys. -/
def Agrees {K : Type} [LinearOrder K] (vs : RawValidatorSet K) : Prop :=
  ∀ v, v ∈ vs.validators ↔ v ∈ vs.powers

end RawValidatorSet

/-- In whatever order the map is iterated, the conversion fails if a key does, and a set that it
gives has the same keys in both fields if the bytes had. -/
def DecodesExactly (valid : VerifyingKeyBytes → Bool) (value : ValidatorSetBytes) : Prop :=
  ∀ entries : List (VerifyingKeyBytes × Power), entries.Perm value.powers.toList →
    (¬AllValid valid value → ∃ e, tryFrom valid value entries = .error e) ∧
    ∀ vs, tryFrom valid value entries = .ok vs → value.Agrees → vs.Agrees

/-! ## Maps from lists of entries -/

section

variable {K V : Type} [LinearOrder K]

/-- Insertion of entries with distinct keys makes a map of these entries. -/
theorem getElem?_foldl_insert {l : List (K × V)} (hnodup : (l.map Prod.fst).Nodup) {k : K} {v : V} :
    (l.foldl (fun m entry => m.insert entry.1 entry.2) (∅ : HashMap K V))[k]? = some v ↔
      (k, v) ∈ l := by
  constructor
  · intro hget
    by_cases hk : k ∈ l.map Prod.fst
    · obtain ⟨⟨k', v'⟩, hentry, rfl⟩ := List.mem_map.mp hk
      rw [getElem?_foldl_insert_of_mem hnodup ∅ hentry, Option.some.injEq] at hget
      exact hget ▸ hentry
    · have hmany : l.foldl (fun m entry => m.insert entry.1 entry.2) (∅ : HashMap K V) =
          (∅ : HashMap K V).insertMany l := Std.ExtTreeMap.insertMany_list_eq_foldl.symm
      rw [hmany, Std.ExtTreeMap.getElem?_insertMany_list_of_contains_eq_false] at hget
      · cases hget
      · rw [← Bool.not_eq_true, List.contains_iff_mem]
        exact hk
  · exact getElem?_foldl_insert_of_mem hnodup ∅

end

/-! ## Conversion from bytes -/

theorem fromBytes_toBytes (pk : CheckedKey valid) : fromBytes valid pk.toBytes = .ok pk :=
  dif_pos pk.passes

theorem fromBytes_of_not_valid {bytes : VerifyingKeyBytes} (h : ¬valid bytes) :
    fromBytes valid bytes = .error {} := dif_neg h

/-- The key vector keeps the keys that pass the check. -/
theorem mem_validators_tryFrom {value : ValidatorSetBytes}
    {entries : List (VerifyingKeyBytes × Power)} {vs : RawValidatorSet (CheckedKey valid)}
    (h : tryFrom valid value entries = .ok vs) (pk : CheckedKey valid) :
    pk ∈ vs.validators ↔ pk.toBytes ∈ value.validators := by
  cases h
  rw [List.mem_filterMap]
  constructor
  · intro hmem
    obtain ⟨bytes, hbytes, heq⟩ := hmem
    by_cases hvalid : valid bytes
    · rw [fromBytes_toBytes ⟨bytes, hvalid⟩] at heq
      cases heq
      exact hbytes
    · rw [fromBytes_of_not_valid hvalid] at heq
      cases heq
  · intro hmem
    refine ⟨pk.toBytes, hmem, ?_⟩
    rw [fromBytes_toBytes]
    rfl

/-- The bytes of the entries of a map. -/
def entryBytes (entry : CheckedKey valid × Power) : VerifyingKeyBytes × Power :=
  (entry.1.toBytes, entry.2)

theorem entryBytes_injective :
    Function.Injective (entryBytes : CheckedKey valid × Power → VerifyingKeyBytes × Power) := by
  intro a b h
  have hkey : (entryBytes a).1 = (entryBytes b).1 := congrArg Prod.fst h
  have hpower : (entryBytes a).2 = (entryBytes b).2 := congrArg Prod.snd h
  exact Prod.ext (CheckedKey.toBytes_injective hkey) hpower

/-- If no key fails, all entries are inserted. -/
theorem convertAndInsert_entryBytes (l : List (CheckedKey valid × Power))
    (newPowers : HashMap (CheckedKey valid) Power) :
    convertAndInsert valid (l.map entryBytes) newPowers =
      (l.foldl (fun m entry => m.insert entry.1 entry.2) newPowers, .ok ()) := by
  induction l generalizing newPowers with
  | nil => rfl
  | cons entry l ih =>
    rw [List.map_cons, entryBytes, convertAndInsert, fromBytes_toBytes]
    exact ih (newPowers.insert entry.1 entry.2)

theorem exists_entryBytes {entries : List (VerifyingKeyBytes × Power)}
    (h : ∀ entry ∈ entries, valid entry.1) :
    ∃ l : List (CheckedKey valid × Power), entries = l.map entryBytes := by
  induction entries with
  | nil => exact ⟨[], rfl⟩
  | cons entry entries ih =>
    obtain ⟨l, rfl⟩ := ih fun entry' hmem => h entry' (List.mem_cons_of_mem _ hmem)
    exact ⟨(⟨entry.1, h entry List.mem_cons_self⟩, entry.2) :: l, rfl⟩

theorem nodup_keys_of_perm {K V : Type} [LinearOrder K] {m : HashMap K V} {entries : List (K × V)}
    (h : entries.Perm m.toList) : (entries.map Prod.fst).Nodup := by
  rw [(h.map Prod.fst).nodup_iff, Std.ExtTreeMap.map_fst_toList_eq_keys]
  exact Std.ExtTreeMap.nodup_keys

theorem mem_iff_of_perm {K V : Type} [LinearOrder K] {m : HashMap K V} {entries : List (K × V)}
    (h : entries.Perm m.toList) {k : K} {v : V} : (k, v) ∈ entries ↔ m[k]? = some v := by
  rw [h.mem_iff, Std.ExtTreeMap.mem_toList_iff_getElem?_eq_some]

theorem getElem?_powers_tryFrom {value : ValidatorSetBytes}
    {entries : List (VerifyingKeyBytes × Power)} {vs : RawValidatorSet (CheckedKey valid)}
    (hperm : entries.Perm value.powers.toList) (hvalid : ∀ bytes ∈ value.powers, valid bytes)
    (h : tryFrom valid value entries = .ok vs) (pk : CheckedKey valid) :
    vs.powers[pk]? = value.powers[pk.toBytes]? := by
  have hentries : ∀ entry ∈ entries, valid entry.1 := by
    intro entry hentry
    have hget := (mem_iff_of_perm hperm).mp hentry
    exact hvalid entry.1 (Std.ExtTreeMap.mem_iff_isSome_getElem?.mpr (hget ▸ rfl))
  obtain ⟨l, rfl⟩ := exists_entryBytes hentries
  have hnodup : (l.map Prod.fst).Nodup := by
    have hbytes := nodup_keys_of_perm hperm
    rw [List.map_map] at hbytes
    apply List.Nodup.of_map CheckedKey.toBytes
    rw [List.map_map]
    exact hbytes
  cases h
  apply Option.ext
  intro p
  rw [convertAndInsert_entryBytes, getElem?_foldl_insert hnodup, ← mem_iff_of_perm hperm,
    ← List.mem_map_of_injective entryBytes_injective]
  rfl

/-! ## Conversion to bytes -/

theorem getElem?_powers_intoBytes {vs : RawValidatorSet (CheckedKey valid)}
    {entries : List (CheckedKey valid × Power)} (hperm : entries.Perm vs.powers.toList)
    {bytes : VerifyingKeyBytes} {p : Power} :
    (intoBytes vs entries).powers[bytes]? = some p ↔ (bytes, p) ∈ entries.map entryBytes := by
  have hfold : (intoBytes vs entries).powers =
      (entries.map entryBytes).foldl (fun m entry => m.insert entry.1 entry.2) ∅ := by
    rw [List.foldl_map]
    rfl
  have hnodup : ((entries.map entryBytes).map Prod.fst).Nodup := by
    have hbytes := (nodup_keys_of_perm hperm).map CheckedKey.toBytes_injective
    rw [List.map_map] at hbytes ⊢
    exact hbytes
  rw [hfold, getElem?_foldl_insert hnodup]

theorem valid_of_mem_powers_intoBytes {vs : RawValidatorSet (CheckedKey valid)}
    {entries : List (CheckedKey valid × Power)} (hperm : entries.Perm vs.powers.toList)
    {bytes : VerifyingKeyBytes} (h : bytes ∈ (intoBytes vs entries).powers) : valid bytes := by
  rw [Std.ExtTreeMap.mem_iff_isSome_getElem?, Option.isSome_iff_exists] at h
  obtain ⟨p, hget⟩ := h
  rw [getElem?_powers_intoBytes hperm, List.mem_map] at hget
  obtain ⟨entry, -, heq⟩ := hget
  cases heq
  exact entry.1.passes

/-- Whatever the orders in which the maps are iterated, the bytes of a set give it back. -/
theorem tryFrom_intoBytes {vs : RawValidatorSet (CheckedKey valid)}
    {entries : List (CheckedKey valid × Power)} (hperm : entries.Perm vs.powers.toList)
    {byteEntries : List (VerifyingKeyBytes × Power)}
    (hbytes : byteEntries.Perm (intoBytes vs entries).powers.toList) :
    tryFrom valid (intoBytes vs entries) byteEntries = .ok vs := by
  obtain ⟨vs', hvs'⟩ : ∃ vs', tryFrom valid (intoBytes vs entries) byteEntries = .ok vs' := ⟨_, rfl⟩
  have hpowers : vs'.powers = vs.powers := by
    apply Std.ExtTreeMap.ext_getElem?
    intro pk
    rw [getElem?_powers_tryFrom hbytes (fun _ => valid_of_mem_powers_intoBytes hperm) hvs']
    apply Option.ext
    intro p
    rw [getElem?_powers_intoBytes hperm, ← mem_iff_of_perm hperm]
    exact List.mem_map_of_injective entryBytes_injective (a := (pk, p))
  have hvalidators : vs'.validators = vs.validators := by
    cases hvs'
    have hkeep : (fun bytes => (fromBytes valid bytes).toOption) ∘ CheckedKey.toBytes = some := by
      funext pk
      show (fromBytes valid pk.toBytes).toOption = some pk
      rw [fromBytes_toBytes]
      rfl
    show (vs.validators.map CheckedKey.toBytes).filterMap _ = _
    rw [List.filterMap_map, hkeep, List.filterMap_some]
  rw [hvs']
  cases vs
  cases vs'
  cases hpowers
  cases hvalidators
  rfl

/-! ## Exactness -/

theorem agrees_tryFrom {value : ValidatorSetBytes} {entries : List (VerifyingKeyBytes × Power)}
    {vs : RawValidatorSet (CheckedKey valid)} (hperm : entries.Perm value.powers.toList)
    (hvalid : AllValid valid value) (h : tryFrom valid value entries = .ok vs)
    (hagrees : value.Agrees) : vs.Agrees := by
  intro pk
  rw [mem_validators_tryFrom h, hagrees, Std.ExtTreeMap.mem_iff_isSome_getElem?,
    Std.ExtTreeMap.mem_iff_isSome_getElem?, getElem?_powers_tryFrom hperm hvalid.powers h]

/-- A set survives the conversions to and from bytes, but bytes are converted exactly if and only
if every key in them passes the check. -/
theorem decodes_exactly_iff :
    (∀ (vs : RawValidatorSet (CheckedKey valid)) (entries : List (CheckedKey valid × Power))
      (byteEntries : List (VerifyingKeyBytes × Power)), entries.Perm vs.powers.toList →
      byteEntries.Perm (intoBytes vs entries).powers.toList →
      tryFrom valid (intoBytes vs entries) byteEntries = .ok vs) ∧
    ∀ value : ValidatorSetBytes, DecodesExactly valid value ↔ AllValid valid value := by
  constructor
  · intro vs entries byteEntries hperm hbytes
    exact tryFrom_intoBytes hperm hbytes
  · intro value
    constructor
    · intro h
      by_contra hinvalid
      obtain ⟨e, herror⟩ := (h _ (List.Perm.refl _)).1 hinvalid
      cases herror
    · intro hvalid entries hperm
      exact ⟨fun hinvalid => absurd hvalid hinvalid, fun vs h => agrees_tryFrom hperm hvalid h⟩

/-- If the fields of the bytes have the same keys, then those of the set do in whatever order the
map is iterated if and only if no key or every key fails. -/
theorem agrees_tryFrom_iff {value : ValidatorSetBytes} (hagrees : value.Agrees) :
    (∀ entries : List (VerifyingKeyBytes × Power), entries.Perm value.powers.toList →
      ∀ vs, tryFrom valid value entries = .ok vs → vs.Agrees) ↔
    (∀ bytes ∈ value.powers, valid bytes) ∨ ∀ bytes ∈ value.powers, ¬valid bytes := by
  constructor
  · intro h
    by_contra hmixed
    push Not at hmixed
    obtain ⟨⟨bad, hbad, hinvalid⟩, good, hgood, hvalid⟩ := hmixed
    rw [Std.ExtTreeMap.mem_iff_isSome_getElem?, Option.isSome_iff_exists] at hbad
    obtain ⟨p, hget⟩ := hbad
    -- The key that fails comes first, so that nothing is inserted.
    have hentry : (bad, p) ∈ value.powers.toList :=
      Std.ExtTreeMap.mem_toList_iff_getElem?_eq_some.mpr hget
    have hmem := h _ (List.perm_cons_erase hentry).symm _ rfl ⟨good, hvalid⟩
    rw [@mem_validators_tryFrom valid value _ _ rfl, hagrees, convertAndInsert,
      fromBytes_of_not_valid hinvalid] at hmem
    exact Std.ExtTreeMap.not_mem_empty (hmem.mp hgood)
  · rintro (hvalid | hinvalid) entries hperm vs h
    · exact agrees_tryFrom hperm ⟨fun bytes hmem => hvalid bytes ((hagrees bytes).mp hmem), hvalid⟩
        h hagrees
    · intro pk
      have hnotMem : pk.toBytes ∉ value.powers := fun hmem => hinvalid _ hmem pk.passes
      rw [mem_validators_tryFrom h, hagrees]
      refine ⟨fun hmem => absurd hmem hnotMem, fun hmem => ?_⟩
      cases h
      cases entries with
      | nil => exact absurd hmem Std.ExtTreeMap.not_mem_empty
      | cons entry entries =>
        have hget := (mem_iff_of_perm hperm (k := entry.1) (v := entry.2)).mp List.mem_cons_self
        have hfails := hinvalid entry.1 (Std.ExtTreeMap.mem_iff_isSome_getElem?.mpr (hget ▸ rfl))
        rw [convertAndInsert, fromBytes_of_not_valid hfails] at hmem
        exact absurd hmem Std.ExtTreeMap.not_mem_empty

namespace Sample

/-- The bytes 1, 0, …, 0, which are the neutral point of the curve. -/
def neutralBytes : VerifyingKeyBytes := 256 ^ 31

/-- The bytes of the base point of the curve. -/
def basePointBytes : VerifyingKeyBytes :=
  0x5866666666666666666666666666666666666666666666666666666666666666

/-- The bytes 2, 0, …, 0, which are no point of the curve. -/
def offCurveBytes : VerifyingKeyBytes := 2 * 256 ^ 31

/-- The check, as far as these three are concerned. -/
def onCurve (bytes : VerifyingKeyBytes) : Bool := bytes ≠ offCurveBytes

def neutralKey : CheckedKey onCurve := { toBytes := neutralBytes, passes := by decide }

def basePointKey : CheckedKey onCurve := { toBytes := basePointBytes, passes := by decide }

def twoKeys : RawValidatorSet (CheckedKey onCurve) where
  validators := [neutralKey, basePointKey]
  powers := ((∅ : HashMap (CheckedKey onCurve) Power).insert neutralKey 1).insert basePointKey 2

def mixedBytes : ValidatorSetBytes where
  validators := [neutralBytes, offCurveBytes]
  powers := ((∅ : HashMap VerifyingKeyBytes Power).insert neutralBytes 1).insert offCurveBytes 1

end Sample

/-- Two keys, of which the maps are iterated in opposite orders. -/
theorem decodes_exactly_two_keys :
    tryFrom Sample.onCurve
      (intoBytes Sample.twoKeys [(Sample.neutralKey, 1), (Sample.basePointKey, 2)])
      [(Sample.basePointBytes, 2), (Sample.neutralBytes, 1)] = .ok Sample.twoKeys :=
  decodes_exactly_iff.1 Sample.twoKeys [(Sample.neutralKey, 1), (Sample.basePointKey, 2)]
    [(Sample.basePointBytes, 2), (Sample.neutralBytes, 1)] (by decide) (by decide)

/-- With one key that fails and one that does not, there is no error, and the fields of the set
may differ. -/
theorem mixed_not_decoded : Sample.mixedBytes.Agrees ∧
    ¬DecodesExactly Sample.onCurve Sample.mixedBytes ∧
    ∃ entries vs, entries.Perm Sample.mixedBytes.powers.toList ∧
      tryFrom Sample.onCurve Sample.mixedBytes entries = .ok vs ∧ ¬vs.Agrees := by
  have hinvalid : ¬AllValid Sample.onCurve Sample.mixedBytes := fun hvalid =>
    absurd (hvalid.validators Sample.offCurveBytes (by decide)) (by decide)
  refine ⟨?_, ?_, [(Sample.offCurveBytes, 1), (Sample.neutralBytes, 1)], _, by decide, rfl, ?_⟩
  · intro v
    simp only [Sample.mixedBytes, Std.ExtTreeMap.mem_insert, Std.compare_eq_iff_eq,
      Std.ExtTreeMap.not_mem_empty, List.mem_cons, List.not_mem_nil, or_false]
    rw [or_comm, @eq_comm _ v, @eq_comm _ v]
  · intro h
    obtain ⟨e, herror⟩ := (h _ (List.Perm.refl _)).1 hinvalid
    cases herror
  · intro hagrees
    exact absurd ((hagrees Sample.neutralKey).mp (by decide)) (by decide)

end HotStuffRs
