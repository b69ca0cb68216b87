import HanabiBot.Basics.Identity

/-!
# The names of cards

A card is logged as the short form of its suit and its rank.  `getShortForms` of
`src/variants.js` chooses the short forms from the first suit on: a fixed letter for three
suits, for the others the letter of the colour table or the first of the name, or, if it is
taken, the first letter of the name that is not.

Colours are a function from names to letters, and `lower` is what a letter is in lower case;
what a name is missing (`undefined`) is `none`.

* `shortForms_iff` — cards have different names, which `expandShort` reads back, if and only if
  every suit finds a letter that is not taken;
* `distinctNames_iff` — so a variant with these short forms has distinct names exactly then;
* `indigo_pink` — two suits with one letter.
-/

namespace HanabiBot

/-- The letters of Black, Pink and Brown. -/
def fixedForm (suitName : String) : Option Char :=
  if suitName = "Black" then some 'k'
  else if suitName = "Pink" then some 'i'
  else if suitName = "Brown" then some 'n'
  else none

section

variable (lower : Char → Char) (colours : String → Option Char)

/-- `abbreviation`, before it is put in lower case: the first letter of an empty name is empty. -/
def abbreviation (suitName : String) : List Char :=
  match colours suitName with
  | some letter => [letter]
  | none => suitName.toList.take 1

/-- What is pushed for a suit, after the abbreviations of the suits before it. -/
def nextForm (abbreviations : List (Option (List Char))) (suitName : String) :
    Option (List Char) :=
  match fixedForm suitName with
  | some letter => some [letter]
  | none =>
    let form := (abbreviation colours suitName).map lower
    if abbreviations.contains (some form) then
      ((suitName.toList.map lower).find? fun char => !abbreviations.contains (some [char])).map
        fun char => [char]
    else some form

/-- `getShortForms`. -/
def getShortForms (suits : List String) : List (Option (List Char)) :=
  suits.foldl (fun abbreviations suitName =>
    abbreviations ++ [nextForm lower colours abbreviations suitName]) []

end

/-- `logCard`; `undefined` and a number add up to `NaN`. -/
def logCard (shortForms : List (Option (List Char))) (id : Identity) : List Char :=
  match shortForms[id.suitIndex]?.join with
  | some form => form ++ (toString id.rank).toList
  | none => ['N', 'a', 'N']

/-- `Number(char) || -1`. -/
def digitOf (char : Char) : ℤ :=
  if char.isDigit ∧ char ≠ '0' then (char.toNat : ℤ) - '0'.toNat else -1

/-- `expandShort`. -/
def expandShort (shortForms : List (Option (List Char))) (short : List Char) : ℤ × ℤ :=
  ((shortForms.idxOf? (short[0]?.map fun char => [char])).elim (-1) fun i => (i : ℤ),
    short[1]?.elim (-1) digitOf)

/-! ## Short forms without ambiguity -/

/-- One letter for each suit, and a different one. -/
structure Distinct (shortForms : List (Option (List Char))) : Prop where
  single : ∀ form ∈ shortForms, ∃ char, form = some [char]
  nodup : shortForms.Nodup

/-- The cards of the suits have different names, and these can be read back. -/
structure Unambiguous (suits : List String) (shortForms : List (Option (List Char))) : Prop
    extends Distinct shortForms where
  length : shortForms.length = suits.length
  logCard_inj : ∀ id id' : Identity, id.Valid { suits } → id'.Valid { suits } →
    logCard shortForms id = logCard shortForms id' → id = id'
  expandShort_logCard : ∀ id : Identity, id.Valid { suits } →
    expandShort shortForms (logCard shortForms id) = ((id.suitIndex : ℤ), (id.rank : ℤ))

/-- The suit finds a letter that is not taken: its fixed one, or the one of the table or the name,
or, if that is taken, another one of the name. -/
def FindsLetter (lower : Char → Char) (colours : String → Option Char)
    (abbreviations : List (Option (List Char))) (suitName : String) : Prop :=
  match fixedForm suitName with
  | some letter => some [letter] ∉ abbreviations
  | none =>
    if some ((abbreviation colours suitName).map lower) ∈ abbreviations then
      ∃ char ∈ suitName.toList.map lower, some [char] ∉ abbreviations
    else abbreviation colours suitName ≠ []

section

variable {lower : Char → Char} {colours : String → Option Char}

theorem getShortForms_append (suits : List String) (suitName : String) :
    getShortForms lower colours (suits ++ [suitName]) =
      getShortForms lower colours suits ++
        [nextForm lower colours (getShortForms lower colours suits) suitName] := by
  simp [getShortForms, List.foldl_append]

theorem length_getShortForms (suits : List String) :
    (getShortForms lower colours suits).length = suits.length := by
  induction suits using List.reverseRecOn with
  | nil => rfl
  | append_singleton suits suitName ih => simp [getShortForms_append, ih]

theorem length_abbreviation_le (suitName : String) :
    (abbreviation colours suitName).length ≤ 1 := by
  unfold abbreviation
  split
  · rfl
  · exact List.length_take_le 1 _

/-- The form of a suit is a new letter if and only if the suit finds one. -/
theorem nextForm_iff (abbreviations : List (Option (List Char))) (suitName : String) :
    ((∃ char, nextForm lower colours abbreviations suitName = some [char]) ∧
        nextForm lower colours abbreviations suitName ∉ abbreviations) ↔
      FindsLetter lower colours abbreviations suitName := by
  unfold nextForm FindsLetter
  cases fixedForm suitName with
  | some letter => simp
  | none =>
    simp only [List.contains_iff_mem]
    split
    · rename_i htaken
      constructor
      · rintro ⟨⟨char, hchar⟩, hnew⟩
        obtain ⟨c, hc, heq⟩ := Option.map_eq_some_iff.1 hchar
        exact ⟨c, List.mem_of_find?_eq_some hc, by simpa using List.find?_some hc⟩
      · rintro ⟨c, hc, hnew⟩
        obtain ⟨c', hc'⟩ := Option.isSome_iff_exists.1
          (List.find?_isSome (p := fun char => !abbreviations.contains (some [char])).2
            ⟨c, hc, by simpa using hnew⟩)
        have hfree := List.find?_some hc'
        simp only [hc', Option.map_some]
        exact ⟨⟨c', rfl⟩, by simpa using hfree⟩
    · rename_i hfree
      refine ⟨fun h hempty => ?_, fun hne => ⟨?_, hfree⟩⟩
      · obtain ⟨⟨c, hc⟩, -⟩ := h
        rw [hempty] at hc
        exact nomatch Option.some.inj hc
      · have hle := @length_abbreviation_le colours suitName
        obtain ⟨c, hc⟩ := List.length_eq_one_iff.1
          (le_antisymm hle (List.length_pos_iff.2 hne))
        exact ⟨lower c, by rw [hc]; rfl⟩

/-- One more suit keeps the forms apart if and only if it finds a letter. -/
theorem distinct_append_iff (abbreviations : List (Option (List Char))) (suitName : String) :
    Distinct (abbreviations ++ [nextForm lower colours abbreviations suitName]) ↔
      Distinct abbreviations ∧ FindsLetter lower colours abbreviations suitName := by
  rw [← nextForm_iff]
  constructor
  · rintro ⟨hsingle, hnodup⟩
    rw [List.nodup_append_comm, List.singleton_append, List.nodup_cons] at hnodup
    exact ⟨⟨fun form hform => hsingle form (List.mem_append_left _ hform), hnodup.2⟩,
      hsingle _ (by simp), hnodup.1⟩
  · rintro ⟨⟨hsingle, hnodup⟩, hchar, hnew⟩
    refine ⟨fun form hform => ?_, ?_⟩
    · obtain hform | hform := List.mem_append.1 hform
      · exact hsingle form hform
      · exact List.mem_singleton.1 hform ▸ hchar
    · rw [List.nodup_append_comm, List.singleton_append, List.nodup_cons]
      exact ⟨hnew, hnodup⟩

theorem distinct_iff (suits : List String) :
    Distinct (getShortForms lower colours suits) ↔
      ∀ before suitName after, suits = before ++ suitName :: after →
        FindsLetter lower colours (getShortForms lower colours before) suitName := by
  induction suits using List.reverseRecOn with
  | nil =>
    refine ⟨fun _ before suitName after h => by simp at h, fun _ => ⟨?_, List.nodup_nil⟩⟩
    exact fun form hform => absurd hform List.not_mem_nil
  | append_singleton suits last ih =>
    rw [getShortForms_append, distinct_append_iff, ih]
    constructor
    · rintro ⟨hsuits, hlast⟩ before suitName after heq
      obtain rfl | ⟨after, l, rfl⟩ := List.eq_nil_or_concat' after
      · obtain ⟨rfl, h⟩ := List.append_inj' heq rfl
        obtain rfl := List.singleton_inj.1 h
        exact hlast
      · rw [← List.cons_append, ← List.append_assoc] at heq
        exact hsuits before suitName after (List.append_inj' heq rfl).1
    · intro h
      refine ⟨fun before suitName after heq => h before suitName (after ++ [last]) ?_,
        h suits last [] rfl⟩
      rw [heq, List.append_assoc, List.cons_append]

end

/-! ## Reading a name back -/

section

variable {suits : List String} {shortForms : List (Option (List Char))} {id : Identity}

theorem Distinct.logCard_eq (h : Distinct shortForms) (hid : id.suitIndex < shortForms.length) :
    ∃ char, shortForms[id.suitIndex]? = some (some [char]) ∧
      logCard shortForms id = char :: (toString id.rank).toList := by
  obtain ⟨char, hchar⟩ := h.single _ (List.getElem_mem hid)
  have hget : shortForms[id.suitIndex]? = some (some [char]) := by
    rw [List.getElem?_eq_getElem hid, hchar]
  refine ⟨char, hget, ?_⟩
  rw [logCard, hget]
  rfl

/-- The rank of a card is the second letter of its name. -/
theorem digitOf_rank {rank : ℕ} (hpos : 1 ≤ rank) (hle : rank ≤ 5) :
    ((toString rank).toList[0]?.elim (-1) digitOf : ℤ) = rank := by
  interval_cases rank <;> decide +kernel

theorem Distinct.expandShort_logCard (h : Distinct shortForms)
    (hlength : shortForms.length = suits.length) (hid : id.Valid { suits }) :
    expandShort shortForms (logCard shortForms id) = ((id.suitIndex : ℤ), (id.rank : ℤ)) := by
  obtain ⟨hsuit, hpos, hle⟩ := hid
  obtain ⟨char, hget, hlog⟩ := h.logCard_eq (hlength ▸ hsuit)
  have hindex : shortForms.idxOf? (some [char]) = some id.suitIndex := by
    obtain ⟨hlt, heq⟩ := List.getElem?_eq_some_iff.1 hget
    rw [← heq, List.idxOf?_eq_some_iff]
    exact ⟨hlt, by simp, fun j hj hne => hj.ne (h.nodup.getElem_inj_iff.1 (by simpa using hne))⟩
  rw [expandShort, hlog]
  simp only [List.getElem?_cons_zero, Option.map_some, hindex, Option.elim_some,
    List.getElem?_cons_succ, digitOf_rank hpos hle]

end

theorem Distinct.unambiguous {suits : List String} {shortForms : List (Option (List Char))}
    (h : Distinct shortForms) (hlength : shortForms.length = suits.length) :
    Unambiguous suits shortForms := by
  refine ⟨h, hlength, fun id id' hid hid' heq => ?_, fun id => h.expandShort_logCard hlength⟩
  have hexpand := h.expandShort_logCard hlength hid
  rw [heq, h.expandShort_logCard hlength hid'] at hexpand
  obtain ⟨hsuit, hrank⟩ := Prod.ext_iff.1 hexpand
  exact Identity.ext (Int.ofNat_inj.1 hsuit).symm (Int.ofNat_inj.1 hrank).symm

/-- The names of cards are unambiguous if and only if every suit finds a letter that none of the
suits before it has. -/
theorem shortForms_iff (lower : Char → Char) (colours : String → Option Char)
    (suits : List String) :
    Unambiguous suits (getShortForms lower colours suits) ↔
      ∀ before suitName after, suits = before ++ suitName :: after →
        FindsLetter lower colours (getShortForms lower colours before) suitName := by
  rw [← distinct_iff]
  exact ⟨Unambiguous.toDistinct, fun h => h.unambiguous (length_getShortForms suits)⟩

/-- The letters of a variant whose short forms are single letters. -/
def Lettered (lower : Char → Char) (colours : String → Option Char) (v : Variant) : Prop :=
  v.shortForms.map (fun char => some [char]) = getShortForms lower colours v.suits

/-- The letters tell the suits apart if and only if the names are unambiguous. -/
theorem distinctNames_iff {lower : Char → Char} {colours : String → Option Char} {v : Variant}
    (h : Lettered lower colours v) :
    v.DistinctNames ↔ Unambiguous v.suits (getShortForms lower colours v.suits) := by
  have hinj : Function.Injective fun char : Char => some [char] := fun char char' heq => by
    simpa using heq
  have hlength : v.shortForms.length = v.suits.length := by
    rw [← @length_getShortForms lower colours v.suits, ← h, List.length_map]
  rw [← h]
  constructor
  · intro hd
    refine Distinct.unambiguous ⟨fun form hform => ?_, hd.nodup.map hinj⟩ (by simpa using hlength)
    obtain ⟨char, -, rfl⟩ := List.mem_map.1 hform
    exact ⟨char, rfl⟩
  · exact fun hu => ⟨hlength, hu.nodup.of_map⟩

/-- Two suits with the letter i. -/
def indigoPink : Variant where
  suits := ["Indigo", "Pink"]
  shortForms := ['i', 'i']

theorem suits_indigoPink : indigoPink.suits ≠ [] := by decide

theorem lettered_indigoPink : Lettered Char.toLower (fun _ => none) indigoPink := by
  unfold Lettered
  decide +kernel

/-- Indigo takes the letter of Pink: both 1s are the card `i1`. -/
theorem indigo_pink :
    getShortForms Char.toLower (fun _ => none) ["Indigo", "Pink"] = [some ['i'], some ['i']] ∧
      ¬ Unambiguous ["Indigo", "Pink"]
        (getShortForms Char.toLower (fun _ => none) ["Indigo", "Pink"]) := by
  have hforms : getShortForms Char.toLower (fun _ => none) ["Indigo", "Pink"] =
      [some ['i'], some ['i']] := by decide +kernel
  refine ⟨hforms, fun h => ?_⟩
  have hnodup := h.nodup
  rw [hforms] at hnodup
  exact absurd hnodup (by decide)

end HanabiBot
