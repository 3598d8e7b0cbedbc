import NamedData.Proofs.Name.Uri
/-!
# The grammar of paths

A text is a path of the segments that stand between its slashes, behind one scheme at most, and each
segment is a digest behind its key or the value of a generic component with its escapes. The
relations below say so without regard to how a path is read. Reading finds the components of a path
if all its segments stand for some, and else says what is wrong with the first that stands for none.

    Cut text segs ↔ segs = segments text                                             (cut_iff)
    component s = .ok c ↔ StandsFor s c                               (component_eq_ok_iff)
    component s = .error e ↔ Refused s e                              (component_eq_error_iff)
-/

namespace NamedData

open Tlv

namespace Uri

/-! ## The grammar -/

/-- Whether a character is the hexadecimal digit of a number, in either case. -/
def HexDigit (c : Char) (n : Nat) : Prop :=
  "0123456789abcdef".toList[n]? = some c ∨ "0123456789ABCDEF".toList[n]? = some c

/-- Whether digits are bytes, two digits for each. -/
inductive Hex : List Char → Bytes → Prop where
  | nil : Hex [] []
  | cons {high low : Char} {h l : Nat} {digits : List Char} {bytes : Bytes} :
      HexDigit high h → HexDigit low l → Hex digits bytes →
        Hex (high :: low :: digits) (UInt8.ofNat (16 * h + l) :: bytes)

/-- Whether a text with escapes is bytes: a percent sign stands before two digits, or before a plus
sign and one. -/
inductive Escapes : List Char → Bytes → Prop where
  | nil : Escapes [] []
  | plain {c : Char} {text : List Char} {bytes : Bytes} :
      c ≠ '%' → Escapes text bytes → Escapes (c :: text) (String.utf8EncodeChar c ++ bytes)
  | digits {high low : Char} {h l : Nat} {text : List Char} {bytes : Bytes} :
      HexDigit high h → HexDigit low l → Escapes text bytes →
        Escapes ('%' :: high :: low :: text) (UInt8.ofNat (16 * h + l) :: bytes)
  | plus {low : Char} {l : Nat} {text : List Char} {bytes : Bytes} :
      HexDigit low l → Escapes text bytes →
        Escapes ('%' :: '+' :: low :: text) (UInt8.ofNat l :: bytes)

/-- What stands before the digits of a digest. -/
def digestKey : List Char := "sha256digest=".toList

/-- Whether a segment stands for a component. -/
inductive StandsFor (segment : List Char) : Component → Prop where
  | digest {digits : List Char} {digest : Digest} :
      segment = digestKey ++ digits → Hex digits digest.bytes →
        StandsFor segment (.ofDigest digest)
  | generic {bytes : Bytes} :
      ¬digestKey <+: segment → Escapes segment bytes → (∀ n, bytes ≠ List.replicate (n + 3) 46) →
        StandsFor segment (.generic bytes)
  | dots {n : Nat} :
      ¬digestKey <+: segment → Escapes segment (List.replicate (n + 3) 46) →
        StandsFor segment (.generic (List.replicate n 46))

/-- Whether a segment is sixty-four digits behind the key of digests, or has not that key and has
its percent signs in escapes only. -/
def WellFormed (segment : List Char) : Prop :=
  (∃ digits, segment = digestKey ++ digits ∧ digits.length = 64 ∧
    ∀ digit ∈ digits, ∃ n, HexDigit digit n) ∨
  ¬digestKey <+: segment ∧ ∃ bytes, Escapes segment bytes

/-- What is wrong with a segment. -/
inductive Refused (segment : List Char) : Error → Prop where
  | length {digits : List Char} {bytes : Bytes} :
      segment = digestKey ++ digits → Hex digits bytes → bytes.length ≠ 32 →
        Refused segment (.digestLength bytes.length)
  | digits {digits : List Char} :
      segment = digestKey ++ digits → (∀ bytes, ¬Hex digits bytes) →
        Refused segment (.badSegment (String.ofList segment))
  | escapes :
      ¬digestKey <+: segment → (∀ bytes, ¬Escapes segment bytes) →
        Refused segment (.badSegment (String.ofList segment))

/-- Whether a path is what stands behind the scheme of a text that has one. -/
def Behind (text path : List Char) : Prop :=
  text = "ndn:".toList ++ path ∨ ¬"ndn:".toList <+: text ∧ text = path

/-- Whether a text is a path of segments, with a slash between each two and any number of empty ones
left out. -/
def Cut (text : List Char) (segments : List (List Char)) : Prop :=
  ∃ parts, Behind text (['/'].intercalate parts) ∧ (∀ part ∈ parts, '/' ∉ part) ∧
    segments = parts.filter fun part => !part.isEmpty

/-! ## Digits -/

theorem hexValue?_eq_some_iff {c : Char} {n : Nat} :
    Bytes.hexValue? c = some n ↔ HexDigit c n := by
  constructor
  · intro h
    have table : ∀ k < 128, ∀ n ∈ Bytes.hexValue? (Char.ofNat k), HexDigit (Char.ofNat k) n := by
      unfold HexDigit
      decide +kernel
    have hascii : c.toNat < 128 := by
      unfold Bytes.hexValue? at h
      simp only [Char.le_def, UInt32.le_iff_toNat_le] at h
      have hnat : c.toNat = c.val.toNat := rfl
      split_ifs at h <;> simp at * <;> omega
    have hdigit := table c.toNat hascii
    rw [Char.ofNat_toNat] at hdigit
    exact hdigit n h
  · intro h
    have table : ∀ n < 16, "0123456789abcdef".toList[n]?.bind Bytes.hexValue? = some n ∧
        "0123456789ABCDEF".toList[n]?.bind Bytes.hexValue? = some n := by decide
    obtain h | h := h
    · have hvalue := (table n (List.getElem?_eq_some_iff.1 h).1).1
      rwa [h] at hvalue
    · have hvalue := (table n (List.getElem?_eq_some_iff.1 h).1).2
      rwa [h] at hvalue

theorem ofHexDigits?_eq_some_iff {digits : List Char} {bytes : Bytes} :
    Bytes.ofHexDigits? digits = some bytes ↔ Hex digits bytes := by
  constructor
  · intro h
    fun_induction Bytes.ofHexDigits? digits generalizing bytes with
    | case1 =>
      cases h
      exact .nil
    | case2 => cases h
    | case3 high low rest ih =>
      obtain ⟨m, hm, h⟩ := Option.bind_eq_some_iff.1 h
      obtain ⟨n, hn, h⟩ := Option.bind_eq_some_iff.1 h
      obtain ⟨bytes, hbytes, h⟩ := Option.bind_eq_some_iff.1 h
      cases h
      exact .cons (hexValue?_eq_some_iff.1 hm) (hexValue?_eq_some_iff.1 hn) (ih hbytes)
  · intro h
    induction h with
    | nil => rfl
    | cons hhigh hlow _ ih =>
      rw [Bytes.ofHexDigits?, hexValue?_eq_some_iff.2 hhigh, hexValue?_eq_some_iff.2 hlow, ih]
      rfl

/-- Digits are bytes if there are two for each. -/
theorem exists_hex_iff {digits : List Char} {count : Nat} :
    (∃ bytes, bytes.length = count ∧ Hex digits bytes) ↔
      digits.length = 2 * count ∧ ∀ digit ∈ digits, ∃ n, HexDigit digit n := by
  constructor
  · rintro ⟨bytes, rfl, h⟩
    induction h with
    | nil => exact ⟨rfl, nofun⟩
    | cons hhigh hlow _ ih =>
      refine ⟨by simp only [List.length_cons]; omega, ?_⟩
      exact List.forall_mem_cons.2 ⟨⟨_, hhigh⟩, List.forall_mem_cons.2 ⟨⟨_, hlow⟩, ih.2⟩⟩
  · rintro ⟨hlength, h⟩
    induction count generalizing digits with
    | zero =>
      obtain rfl := List.length_eq_zero_iff.1 hlength
      exact ⟨[], rfl, .nil⟩
    | succ count ih =>
      match digits, hlength with
      | high :: low :: digits, hlength =>
        obtain ⟨⟨m, hm⟩, h⟩ := List.forall_mem_cons.1 h
        obtain ⟨⟨n, hn⟩, h⟩ := List.forall_mem_cons.1 h
        simp only [List.length_cons] at hlength
        obtain ⟨bytes, rfl, hbytes⟩ := ih (by omega) h
        exact ⟨_, rfl, .cons hm hn hbytes⟩

/-! ## Escapes -/

theorem HexDigit.ne_plus {c : Char} {n : Nat} (h : HexDigit c n) : c ≠ '+' := by
  rintro rfl
  have hvalue := hexValue?_eq_some_iff.2 h
  cases hvalue

theorem escapeValue?_eq_some_iff {first second : Char} {byte : UInt8} :
    escapeValue? first second = some byte ↔
      (∃ n, first = '+' ∧ HexDigit second n ∧ byte = UInt8.ofNat n) ∨
        ∃ m n, HexDigit first m ∧ HexDigit second n ∧ byte = UInt8.ofNat (16 * m + n) := by
  simp only [← hexValue?_eq_some_iff, escapeValue?]
  constructor
  · intro h
    obtain ⟨n, hn, h⟩ := Option.bind_eq_some_iff.1 h
    split_ifs at h with hplus
    · exact Or.inl ⟨n, hplus, hn, (Option.some.inj h).symm⟩
    · obtain ⟨m, hm, h⟩ := Option.bind_eq_some_iff.1 h
      exact Or.inr ⟨m, n, hm, hn, (Option.some.inj h).symm⟩
  · rintro (⟨n, rfl, hn, rfl⟩ | ⟨m, n, hm, hn, rfl⟩)
    · rw [hn]
      rfl
    · have hplus : first ≠ '+' := (hexValue?_eq_some_iff.1 hm).ne_plus
      rw [hn, hm]
      exact if_neg hplus

theorem unescapeBytes?_eq_some_iff {text : List Char} {bytes : Bytes} :
    unescapeBytes? text = some bytes ↔ Escapes text bytes := by
  constructor
  · intro h
    fun_induction unescapeBytes? text generalizing bytes with
    | case1 =>
      cases h
      exact .nil
    | case2 first second rest ih =>
      obtain ⟨byte, hbyte, h⟩ := Option.bind_eq_some_iff.1 h
      obtain ⟨bytes, hbytes, h⟩ := Option.bind_eq_some_iff.1 h
      cases h
      obtain ⟨n, rfl, hn, rfl⟩ | ⟨m, n, hm, hn, rfl⟩ := escapeValue?_eq_some_iff.1 hbyte
      · exact .plus hn (ih hbytes)
      · exact .digits hm hn (ih hbytes)
    | case3 => cases h
    | case4 c rest hshape hc ih =>
      obtain ⟨bytes, hbytes, rfl⟩ := Option.map_eq_some_iff.1 h
      exact .plain hc (ih hbytes)
  · intro h
    induction h with
    | nil => rfl
    | plain hc _ ih =>
      rw [unescapeBytes?_cons hc, ih]
      rfl
    | digits hhigh hlow _ ih =>
      rw [unescapeBytes?, escapeValue?_eq_some_iff.2 (Or.inr ⟨_, _, hhigh, hlow, rfl⟩), ih]
      rfl
    | plus hlow _ ih =>
      rw [unescapeBytes?, escapeValue?_eq_some_iff.2 (Or.inl ⟨_, rfl, hlow, rfl⟩), ih]
      rfl

/-! ## Values of dots -/

theorem dropDots_replicate (n : Nat) :
    dropDots (List.replicate (n + 3) 46) = List.replicate n 46 := by
  rw [dropDots, if_pos ⟨by simp, by simp⟩, List.drop_replicate]
  rfl

theorem dropDots_of_ne {bytes : Bytes} (h : ∀ n, bytes ≠ List.replicate (n + 3) 46) :
    dropDots bytes = bytes := by
  apply if_neg
  rintro ⟨hlength, hdots⟩
  apply h (bytes.length - 3)
  rw [List.eq_replicate_iff]
  exact ⟨by omega, by simpa using hdots⟩

/-! ## Segments -/

section

variable {segment digits : List Char}

theorem component_of_key (h : segment = digestKey ++ digits) :
    component segment =
      match Bytes.ofHexDigits? digits with
      | none => .error (.badSegment (String.ofList segment))
      | some bytes =>
        match Digest.ofBytes? bytes with
        | none => .error (.digestLength bytes.length)
        | some digest => .ok (.ofDigest digest) := by
  have hkey : after? "sha256digest=".toList segment = some digits :=
    Component.after?_eq_some_iff.2 h
  rewrite [component, hkey]
  rfl

theorem component_of_not_key (h : ¬digestKey <+: segment) :
    component segment =
      match unescapeBytes? segment with
      | none => .error (.badSegment (String.ofList segment))
      | some bytes => .ok (.generic (dropDots bytes)) := by
  have hkey : after? "sha256digest=".toList segment = none := by
    rw [Option.eq_none_iff_forall_ne_some]
    intro rest hrest
    exact h ⟨rest, (Component.after?_eq_some_iff.1 hrest).symm⟩
  rewrite [component, hkey]
  rfl

/-- A segment stands for a component, or there is something wrong with it. -/
theorem exists_standsFor_or_refused (segment : List Char) :
    (∃ c, StandsFor segment c) ∨ ∃ cause, Refused segment cause := by
  by_cases hkey : digestKey <+: segment
  · obtain ⟨digits, hsegment⟩ := hkey
    by_cases hdigits : ∃ bytes, Hex digits bytes
    · obtain ⟨bytes, hbytes⟩ := hdigits
      by_cases hlength : bytes.length = 32
      · have hdigest : StandsFor segment (.ofDigest ⟨bytes, hlength⟩) :=
          .digest hsegment.symm hbytes
        exact Or.inl ⟨_, hdigest⟩
      · exact Or.inr ⟨_, .length hsegment.symm hbytes hlength⟩
    · exact Or.inr ⟨_, .digits hsegment.symm (not_exists.1 hdigits)⟩
  · by_cases hescapes : ∃ bytes, Escapes segment bytes
    · obtain ⟨bytes, hbytes⟩ := hescapes
      by_cases hdots : ∃ n, bytes = List.replicate (n + 3) 46
      · obtain ⟨n, rfl⟩ := hdots
        exact Or.inl ⟨_, .dots hkey hbytes⟩
      · exact Or.inl ⟨_, .generic hkey hbytes (not_exists.1 hdots)⟩
    · exact Or.inr ⟨_, .escapes hkey (not_exists.1 hescapes)⟩

theorem component_of_standsFor {c : Component} (h : StandsFor segment c) :
    component segment = .ok c := by
  cases h with
  | @digest digits digest hsegment hdigits =>
    have hdigest : Digest.ofBytes? digest.bytes = some digest := dif_pos digest.length_bytes
    rw [component_of_key hsegment, ofHexDigits?_eq_some_iff.2 hdigits]
    simp only [hdigest]
  | generic hkey hescapes hdots =>
    rw [component_of_not_key hkey, unescapeBytes?_eq_some_iff.2 hescapes]
    simp only [dropDots_of_ne hdots]
  | dots hkey hescapes =>
    rw [component_of_not_key hkey, unescapeBytes?_eq_some_iff.2 hescapes]
    simp only [dropDots_replicate]

theorem component_of_refused {cause : Error} (h : Refused segment cause) :
    component segment = .error cause := by
  cases h with
  | @length digits bytes hsegment hdigits hlength =>
    have hdigest : Digest.ofBytes? bytes = none := dif_neg hlength
    rw [component_of_key hsegment, ofHexDigits?_eq_some_iff.2 hdigits]
    simp only [hdigest]
  | @digits digits hsegment hdigits =>
    have hnone : Bytes.ofHexDigits? digits = none :=
      Option.eq_none_iff_forall_ne_some.2 fun bytes h =>
        hdigits bytes (ofHexDigits?_eq_some_iff.1 h)
    rw [component_of_key hsegment, hnone]
  | escapes hkey hescapes =>
    have hnone : unescapeBytes? segment = none :=
      Option.eq_none_iff_forall_ne_some.2 fun bytes h =>
        hescapes bytes (unescapeBytes?_eq_some_iff.1 h)
    rw [component_of_not_key hkey, hnone]

theorem component_eq_ok_iff {c : Component} : component segment = .ok c ↔ StandsFor segment c := by
  refine ⟨fun h => ?_, component_of_standsFor⟩
  obtain ⟨d, hd⟩ | ⟨cause, hcause⟩ := exists_standsFor_or_refused segment
  · rw [component_of_standsFor hd] at h
    exact Except.ok.inj h ▸ hd
  · rw [component_of_refused hcause] at h
    cases h

theorem component_eq_error_iff {cause : Error} :
    component segment = .error cause ↔ Refused segment cause := by
  refine ⟨fun h => ?_, component_of_refused⟩
  obtain ⟨c, hc⟩ | ⟨found, hfound⟩ := exists_standsFor_or_refused segment
  · rw [component_of_standsFor hc] at h
    cases h
  · rw [component_of_refused hfound] at h
    exact Except.error.inj h ▸ hfound

theorem exists_standsFor_iff : (∃ c, StandsFor segment c) ↔ WellFormed segment := by
  constructor
  · rintro ⟨c, h⟩
    cases h with
    | @digest digits digest hsegment hdigits =>
      exact Or.inl ⟨digits, hsegment, exists_hex_iff.1 ⟨_, digest.length_bytes, hdigits⟩⟩
    | generic hkey hescapes => exact Or.inr ⟨hkey, _, hescapes⟩
    | dots hkey hescapes => exact Or.inr ⟨hkey, _, hescapes⟩
  · rintro (⟨digits, hsegment, hdigits⟩ | ⟨hkey, bytes, hescapes⟩)
    · obtain ⟨bytes, hlength, hbytes⟩ : ∃ bytes, bytes.length = 32 ∧ Hex digits bytes :=
        exists_hex_iff.2 hdigits
      have hdigest : StandsFor segment (.ofDigest ⟨bytes, hlength⟩) := .digest hsegment hbytes
      exact ⟨_, hdigest⟩
    · have hread : component segment = .ok (.generic (dropDots bytes)) := by
        rw [component_of_not_key hkey, unescapeBytes?_eq_some_iff.2 hescapes]
      exact ⟨_, component_eq_ok_iff.1 hread⟩

end

/-! ## Paths -/

theorem exists_forall₂_iff {α β : Type} {R : α → β → Prop} {as : List α} :
    (∃ bs, List.Forall₂ R as bs) ↔ ∀ a ∈ as, ∃ b, R a b := by
  induction as with
  | nil => exact ⟨nofun, fun _ => ⟨[], .nil⟩⟩
  | cons a as ih =>
    rw [List.forall_mem_cons, ← ih]
    constructor
    · rintro ⟨_, _ | ⟨hb, hbs⟩⟩
      exact ⟨⟨_, hb⟩, _, hbs⟩
    · rintro ⟨⟨b, hb⟩, bs, hbs⟩
      exact ⟨b :: bs, .cons hb hbs⟩

theorem pieces_eq_splitOn (text : List Char) : pieces text = text.splitOn '/' := by
  induction text with
  | nil => rfl
  | cons c text ih =>
    rw [pieces, List.splitOn_cons_eq_if_modifyHead, ih]
    by_cases hc : c = '/'
    · simp [hc]
    · have hne : text.splitOn '/' ≠ [] := List.splitOn_ne_nil _ _
      cases h : text.splitOn '/' with
      | nil => exact absurd h hne
      | cons piece others => simp [hc]

theorem slash_not_mem_pieces (text : List Char) : ∀ piece ∈ pieces text, '/' ∉ piece := by
  induction text with
  | nil => simp [pieces]
  | cons c text ih =>
    rw [pieces]
    split_ifs with hc
    · exact List.forall_mem_cons.2 ⟨List.not_mem_nil, ih⟩
    · split
      · simpa using Ne.symm hc
      · next piece others hpieces =>
        rw [hpieces] at ih
        obtain ⟨hpiece, hothers⟩ := List.forall_mem_cons.1 ih
        refine List.forall_mem_cons.2 ⟨?_, hothers⟩
        simpa using ⟨Ne.symm hc, hpiece⟩

theorem behind_iff {text path : List Char} :
    Behind text path ↔ path = (after? "ndn:".toList text).getD text := by
  have hscheme : (∃ rest, after? "ndn:".toList text = some rest) ↔ "ndn:".toList <+: text :=
    exists_congr fun rest => Component.after?_eq_some_iff.trans eq_comm
  unfold Behind
  rw [← Component.after?_eq_some_iff, ← hscheme]
  cases h : after? "ndn:".toList text with
  | none => simp [eq_comm]
  | some rest => simp [eq_comm]

/-- A text is cut into its segments, and into no others. -/
theorem cut_iff {text : List Char} {segs : List (List Char)} :
    Cut text segs ↔ segs = segments text := by
  unfold Cut segments
  simp only [behind_iff]
  constructor
  · rintro ⟨parts, hpath, hslash, rfl⟩
    rw [← hpath, pieces_eq_splitOn]
    cases parts with
    | nil => rfl
    | cons part parts => rw [List.splitOn_intercalate '/' hslash (List.cons_ne_nil _ _)]
  · rintro rfl
    refine ⟨_, ?_, slash_not_mem_pieces _, rfl⟩
    rw [pieces_eq_splitOn, List.intercalate_splitOn]

end Uri

namespace Name

open Uri

theorem ofUri_eq_error_iff {text : String} {cause : Uri.Error} :
    ofUri text = .error cause ↔
      ∃ before bad after, segments text.toList = before ++ bad :: after ∧
        (∀ segment ∈ before, WellFormed segment) ∧ Refused bad cause := by
  have hread : ofUri text = .error cause ↔
      (segments text.toList).mapM component = .error cause := by
    unfold ofUri
    cases (segments text.toList).mapM component <;> simp [Except.map]
  simp only [hread, mapM_eq_error_iff, component_eq_ok_iff, component_eq_error_iff,
    exists_standsFor_iff]

/-- A text is cut in one way into segments. It is the path of a name just if each of these is well
formed, and then the components of the name are what the segments stand for, in order; else the
first segment that is not well formed decides the error. -/
theorem ofUri_accepts_paths (text : String) :
    ∃ segments, (∀ others, Cut text.toList others ↔ others = segments) ∧
      ((∃ name, ofUri text = .ok name) ↔ ∀ segment ∈ segments, WellFormed segment) ∧
      (∀ name, ofUri text = .ok name ↔ List.Forall₂ StandsFor segments name.components) ∧
      ∀ cause, ofUri text = .error cause ↔
        ∃ before bad after, segments = before ++ bad :: after ∧
          (∀ segment ∈ before, WellFormed segment) ∧ Refused bad cause := by
  have hread : ∀ name, ofUri text = .ok name ↔
      List.Forall₂ StandsFor (segments text.toList) name.components := by
    intro name
    simp only [ofUri_eq_ok_iff, component_eq_ok_iff]
  refine ⟨segments text.toList, fun others => cut_iff, ?_, hread, fun cause => ofUri_eq_error_iff⟩
  simp only [hread, ← exists_standsFor_iff, ← exists_forall₂_iff]
  exact ⟨fun ⟨name, h⟩ => ⟨name.components, h⟩, fun ⟨cs, h⟩ => ⟨⟨cs⟩, h⟩⟩

/-- A path with a scheme, an escape with a plus sign, an empty segment and a segment of dots; and
one whose second segment is a digest of one byte, before a third with no digits in its escape. -/
theorem ofUri_accepts_paths_of_odd_segments :
    let segments := ["%+f".toList, "....".toList]
    let name : Name := ⟨[.generic [15], .generic [46]]⟩
    Cut "ndn:/%+f//....".toList segments ∧ List.Forall₂ StandsFor segments name.components ∧
      ofUri "ndn:/%+f//...." = .ok name ∧
      WellFormed "x".toList ∧ Refused "sha256digest=ab".toList (.digestLength 1) ∧
      ofUri "/x/sha256digest=ab/%zz" = .error (.digestLength 1) := by
  intro segments name
  obtain ⟨found, hcut, -, hread, -⟩ := ofUri_accepts_paths "ndn:/%+f//...."
  obtain ⟨found', hcut', -, -, herror⟩ := ofUri_accepts_paths "/x/sha256digest=ab/%zz"
  have hsegments : Cut "ndn:/%+f//....".toList segments := cut_iff.2 (by decide)
  have hsegments' : Cut "/x/sha256digest=ab/%zz".toList
      (["x".toList] ++ "sha256digest=ab".toList :: ["%zz".toList]) := cut_iff.2 (by decide)
  obtain rfl := (hcut _).1 hsegments
  obtain rfl := (hcut' _).1 hsegments'
  have hname : List.Forall₂ StandsFor segments name.components :=
    .cons (component_eq_ok_iff.1 (by decide)) (.cons (component_eq_ok_iff.1 (by decide)) .nil)
  have hfirst : WellFormed "x".toList :=
    exists_standsFor_iff.1 ⟨.ofText "x", component_eq_ok_iff.1 (by decide)⟩
  have hbad : Refused "sha256digest=ab".toList (.digestLength 1) :=
    component_eq_error_iff.1 (by decide)
  refine ⟨hsegments, hname, (hread name).2 hname, hfirst, hbad, (herror _).2 ?_⟩
  exact ⟨_, _, _, rfl, List.forall_mem_singleton.2 hfirst, hbad⟩

end Name

end NamedData
