import Mathlib.Data.List.Basic
import NamedData.Name.Uri
import NamedData.Proofs.Tlv.Element
/-!
# Names in paths

No two names are written as the same path: the segments are set apart by slashes, which stand in
none; the key of a segment by its equals sign, which stands in no value; and a value that is empty
or of dots only by three dots in front. What is written of generic components and of digests is read
back, and only such components are ever read.

    c.Textual → component c.toUriChars = .ok c                               (component_toUriChars)
    segments n.toUriChars = n.components.map toUriChars                       (segments_toUriChars)
    a.toUriChars = b.toUriChars → a = b                                       (eq_of_toUriChars_eq)
-/

namespace NamedData

open Tlv

/-! ## Marks -/

namespace Uri

/-- Whether neither of the marks stands in a text that divide a path and its segments. -/
def Unmarked (text : List Char) : Prop := ∀ c ∈ text, c ≠ '/' ∧ c ≠ '='

theorem Unmarked.slash {text : List Char} (h : Unmarked text) : '/' ∉ text :=
  fun hmem => (h '/' hmem).1 rfl

theorem Unmarked.equals {text : List Char} (h : Unmarked text) : '=' ∉ text :=
  fun hmem => (h '=' hmem).2 rfl

theorem unmarked_flatMap {f : UInt8 → List Char} (h : ∀ byte, Unmarked (f byte)) (bytes : Bytes) :
    Unmarked (bytes.flatMap f) := by
  intro c hc
  obtain ⟨byte, -, hc⟩ := List.mem_flatMap.1 hc
  exact h byte c hc

end Uri

/-! ## Digits -/

namespace Bytes

/-- A digit is read as what it stands for. -/
theorem hexValue?_hexDigit : ∀ n < 16, hexValue? (hexDigit n) = some n := by decide

theorem hexDigit_ne : ∀ n < 16, hexDigit n ≠ '/' ∧ hexDigit n ≠ '=' := by decide

/-- A byte has two digits of sixteen. -/
theorem toNat_div_lt (byte : UInt8) : byte.toNat / 16 < 16 := by
  have hbyte := byte.toNat_lt
  omega

theorem toNat_mod_lt (byte : UInt8) : byte.toNat % 16 < 16 := Nat.mod_lt _ (by decide)

theorem ofNat_digits (byte : UInt8) :
    UInt8.ofNat (16 * (byte.toNat / 16) + byte.toNat % 16) = byte := by
  rw [Nat.div_add_mod, UInt8.ofNat_toNat]

/-- The digits of bytes are read as the bytes. -/
theorem ofHexDigits?_hexDigits (bytes : Bytes) : ofHexDigits? (hexDigits bytes) = some bytes := by
  induction bytes with
  | nil => rfl
  | cons byte bytes ih =>
    have hstep : hexDigits (byte :: bytes) =
        hexDigit (byte.toNat / 16) :: hexDigit (byte.toNat % 16) :: hexDigits bytes := rfl
    rw [hstep, ofHexDigits?, hexValue?_hexDigit _ (toNat_div_lt byte),
      hexValue?_hexDigit _ (toNat_mod_lt byte), ih]
    exact congrArg (fun byte => some (byte :: bytes)) (ofNat_digits byte)

theorem unmarked_hexDigits (bytes : Bytes) : Uri.Unmarked (hexDigits bytes) := by
  refine Uri.unmarked_flatMap (fun byte => ?_) bytes
  exact List.forall_mem_cons.2 ⟨hexDigit_ne _ (toNat_div_lt byte),
    List.forall_mem_singleton.2 (hexDigit_ne _ (toNat_mod_lt byte))⟩

end Bytes

namespace Uri

open Bytes

/-! ## Escapes -/

theorem hexValue?_escapeDigit : ∀ n < 16, hexValue? (escapeDigit n) = some n := by decide

theorem escapeDigit_ne_plus : ∀ n < 16, escapeDigit n ≠ '+' := by decide

theorem escapeDigit_ne : ∀ n < 16, escapeDigit n ≠ '/' ∧ escapeDigit n ≠ '=' := by decide

/-- A byte that stands for itself is no mark and begins no escape, and is a text of one byte. -/
theorem of_isPlain {byte : UInt8} (h : isPlain byte = true) :
    Char.ofNat byte.toNat ≠ '%' ∧ (Char.ofNat byte.toNat ≠ '/' ∧ Char.ofNat byte.toNat ≠ '=') ∧
      String.utf8EncodeChar (Char.ofNat byte.toNat) = [byte] := by
  have table : ∀ n < 256, isPlain (UInt8.ofNat n) = true →
      Char.ofNat n ≠ '%' ∧ (Char.ofNat n ≠ '/' ∧ Char.ofNat n ≠ '=') ∧
        String.utf8EncodeChar (Char.ofNat n) = [UInt8.ofNat n] := by decide +kernel
  simpa only [UInt8.ofNat_toNat] using table byte.toNat byte.toNat_lt (by simpa using h)

theorem unmarked_escapeByte (byte : UInt8) : Unmarked (escapeByte byte) := by
  unfold escapeByte
  split
  · next hplain => exact List.forall_mem_singleton.2 (of_isPlain hplain).2.1
  · refine List.forall_mem_cons.2 ⟨by decide, List.forall_mem_cons.2 ⟨?_, ?_⟩⟩
    · exact escapeDigit_ne _ (toNat_div_lt byte)
    · exact List.forall_mem_singleton.2 (escapeDigit_ne _ (toNat_mod_lt byte))

theorem escapeByte_ne_nil (byte : UInt8) : escapeByte byte ≠ [] := by
  unfold escapeByte
  split <;> simp

theorem unescapeBytes?_cons {c : Char} (h : c ≠ '%') (rest : List Char) :
    unescapeBytes? (c :: rest) =
      (unescapeBytes? rest).map (String.utf8EncodeChar c ++ ·) := by
  rw [unescapeBytes?, if_neg h]
  intro first second rest' hc
  exact absurd hc h

/-- An escaped byte is read as the byte. -/
theorem unescapeBytes?_escapeByte_append (byte : UInt8) (rest : List Char) :
    unescapeBytes? (escapeByte byte ++ rest) = (unescapeBytes? rest).map (byte :: ·) := by
  unfold escapeByte
  split
  · next hplain =>
    obtain ⟨hescape, -, hbyte⟩ := of_isPlain hplain
    rw [List.singleton_append, unescapeBytes?_cons hescape, hbyte]
    rfl
  · have hhigh := toNat_div_lt byte
    have hlow := toNat_mod_lt byte
    have hvalue : escapeValue? (escapeDigit (byte.toNat / 16)) (escapeDigit (byte.toNat % 16)) =
        some byte := by
      rw [escapeValue?, hexValue?_escapeDigit _ hlow, hexValue?_escapeDigit _ hhigh]
      exact (if_neg (escapeDigit_ne_plus _ hhigh)).trans (congrArg some (ofNat_digits byte))
    rw [List.cons_append, List.cons_append, List.singleton_append, unescapeBytes?, hvalue]
    cases unescapeBytes? rest <;> rfl

theorem unescapeBytes?_flatMap_escapeByte (bytes : Bytes) :
    unescapeBytes? (bytes.flatMap escapeByte) = some bytes := by
  induction bytes with
  | nil => rfl
  | cons byte bytes ih =>
    rw [List.flatMap_cons, unescapeBytes?_escapeByte_append, ih]
    rfl

/-! ## Values -/

/-- A value with three dots in front, if it is empty or of dots only. -/
def setApart (value : Bytes) : Bytes :=
  if value.all (· = 46) then 46 :: 46 :: 46 :: value else value

theorem escape_eq (value : Bytes) : escape value = (setApart value).flatMap escapeByte := by
  unfold escape setApart
  split <;> rfl

theorem setApart_ne_nil (value : Bytes) : setApart value ≠ [] := by
  cases value with
  | nil => decide
  | cons byte value =>
    unfold setApart
    split <;> simp

theorem dropDots_setApart (value : Bytes) : dropDots (setApart value) = value := by
  unfold setApart
  split
  · next hdots =>
    have hmarked : (46 :: 46 :: 46 :: value : Bytes).all (· = 46) = true := by simpa using hdots
    exact if_pos ⟨Nat.le_add_left 3 value.length, hmarked⟩
  · next hdots => exact if_neg fun h => hdots h.2

theorem unescapeBytes?_escape (value : Bytes) :
    unescapeBytes? (escape value) = some (setApart value) := by
  rw [escape_eq, unescapeBytes?_flatMap_escapeByte]

theorem eq_of_escape_eq {value value' : Bytes} (h : escape value = escape value') :
    value = value' := by
  have hread := congrArg unescapeBytes? h
  rw [unescapeBytes?_escape, unescapeBytes?_escape, Option.some.injEq] at hread
  rw [← dropDots_setApart value, hread, dropDots_setApart]

theorem escape_ne_nil (value : Bytes) : escape value ≠ [] := by
  rw [escape_eq]
  intro h
  obtain ⟨byte, hbyte⟩ := List.exists_mem_of_ne_nil _ (setApart_ne_nil value)
  exact escapeByte_ne_nil byte (List.flatMap_eq_nil_iff.1 h byte hbyte)

theorem unmarked_escape (value : Bytes) : Unmarked (escape value) := by
  rw [escape_eq]
  exact unmarked_flatMap unmarked_escapeByte _

end Uri

/-! ## Type numbers -/

section

variable {typ typ' : UInt64}

theorem toList_toString_typ : (toString typ).toList = Nat.toDigits 10 typ.toNat := by
  have hrepr : toString typ = Nat.repr typ.toNat := rfl
  rw [hrepr, Nat.repr_eq_ofList_toDigits, String.toList_ofList]

theorem isDigit_of_mem_typ {c : Char} (h : c ∈ (toString typ).toList) : c.isDigit = true := by
  rw [toList_toString_typ] at h
  exact Nat.isDigit_of_mem_toDigits (by decide) (by decide) h

theorem unmarked_typ : Uri.Unmarked (toString typ).toList := by
  intro c hc
  have hdigit := isDigit_of_mem_typ hc
  constructor <;>
  · rintro rfl
    exact absurd hdigit (by decide)

/-- Type numbers that are written alike are the same. -/
theorem eq_of_typ_eq (h : (toString typ).toList = (toString typ').toList) : typ = typ' := by
  rw [toList_toString_typ, toList_toString_typ] at h
  have hread := congrArg (fun digits => Nat.ofDigitChars 10 digits 0) h
  simp only [Nat.ofDigitChars_toDigits (by decide : 1 < 10) (Nat.le_refl 10)] at hread
  exact UInt64.toNat_inj.1 hread

end

/-! ## Components -/

namespace Component

open Uri

/-- What stands before the equals sign: the key of digests, the type number of other components,
and nothing for generic ones, which have no such sign. -/
def key? (c : Component) : Option (List Char) :=
  if c.typ = Code.digestComponent then some "sha256digest".toList
  else if c.typ = Code.genericComponent then none
  else some (toString c.typ).toList

/-- The value as text: the digits of digests, and with escapes for all others. -/
def valueChars (c : Component) : List Char :=
  if c.typ = Code.digestComponent then Bytes.hexDigits c.value else escape c.value

theorem toUriChars_eq (c : Component) :
    c.toUriChars = (c.key?.elim [] (· ++ ['='])) ++ c.valueChars := by
  unfold toUriChars key? valueChars
  split_ifs
  · rfl
  · rfl
  · simp

theorem unmarked_key {c : Component} {key : List Char} (h : c.key? = some key) : Unmarked key := by
  unfold key? at h
  split_ifs at h <;> cases h
  · simp [Unmarked]
  · exact unmarked_typ

theorem unmarked_valueChars (c : Component) : Unmarked c.valueChars := by
  unfold valueChars
  split_ifs
  · exact Bytes.unmarked_hexDigits c.value
  · exact unmarked_escape c.value

/-- The key tells the type. -/
theorem typ_eq_of_key?_eq {c d : Component} (h : c.key? = d.key?) : c.typ = d.typ := by
  -- the key of digests has letters
  have hdigest : ∀ typ : UInt64, "sha256digest".toList ≠ (toString typ).toList := by
    intro typ hkey
    have hletter : 's' ∈ (toString typ).toList := hkey ▸ by decide
    exact absurd (isDigit_of_mem_typ hletter) (by decide)
  unfold key? at h
  split_ifs at h with hc hd hd' hc' hd hd' hd hd'
  · rw [hc, hd]
  · exact absurd (Option.some.inj h) (hdigest d.typ)
  · rw [hc', hd']
  · exact absurd (Option.some.inj h).symm (hdigest c.typ)
  · exact eq_of_typ_eq (Option.some.inj h)

/-- The equals sign tells whether there is a key, and where it ends. -/
theorem key?_eq_of_toUriChars_eq {c d : Component} (h : c.toUriChars = d.toUriChars) :
    c.key? = d.key? ∧ c.valueChars = d.valueChars := by
  have hvalue := (unmarked_valueChars c).equals
  have hvalue' := (unmarked_valueChars d).equals
  rw [toUriChars_eq, toUriChars_eq] at h
  cases hc : c.key? <;> cases hd : d.key? <;> rw [hc, hd] at h <;>
    simp only [Option.elim, List.nil_append, List.append_assoc, List.singleton_append] at h
  · exact ⟨rfl, h⟩
  · exact absurd (h ▸ by simp) hvalue
  · exact absurd (h ▸ by simp) hvalue'
  · obtain ⟨rfl, -, hsame⟩ :=
      (List.append_cons_inj_of_notMem (unmarked_key hc).equals hvalue).1 h
    exact ⟨rfl, hsame⟩

theorem eq_of_toUriChars_eq {c d : Component} (h : c.toUriChars = d.toUriChars) : c = d := by
  obtain ⟨hkey, hchars⟩ := key?_eq_of_toUriChars_eq h
  obtain ⟨typ, value⟩ := c
  obtain ⟨typ', value'⟩ := d
  obtain rfl : typ = typ' := typ_eq_of_key?_eq hkey
  unfold valueChars at hchars
  congr 1
  split_ifs at hchars
  · have hread := congrArg Bytes.ofHexDigits? hchars
    rw [Bytes.ofHexDigits?_hexDigits, Bytes.ofHexDigits?_hexDigits] at hread
    exact Option.some.inj hread
  · exact eq_of_escape_eq hchars

theorem toUriChars_ne_nil (c : Component) : c.toUriChars ≠ [] := by
  unfold toUriChars
  split_ifs
  · exact List.append_ne_nil_of_left_ne_nil (by decide) _
  · exact escape_ne_nil c.value
  · exact List.append_ne_nil_of_right_ne_nil _ (List.cons_ne_nil _ _)

/-- No slash stands in a segment. -/
theorem slash_not_mem_toUriChars (c : Component) : '/' ∉ c.toUriChars := by
  rw [toUriChars_eq, List.mem_append]
  rintro (hkey | hvalue)
  · cases hc : c.key? with
    | none =>
      rw [hc] at hkey
      exact absurd hkey List.not_mem_nil
    | some key =>
      rw [hc] at hkey
      rcases List.mem_append.1 hkey with hkey | hkey
      · exact (unmarked_key hc).slash hkey
      · exact absurd (List.mem_singleton.1 hkey) (by decide)
  · exact (unmarked_valueChars c).slash hvalue

/-! ### Reading a segment -/

/-- Whether a component is of a kind that segments are read as: a generic one, or a digest. -/
def Textual (c : Component) : Prop :=
  c.typ = Code.genericComponent ∨ c.typ = Code.digestComponent ∧ c.value.length = 32

theorem after?_eq_some_iff {beginning text rest : List Char} :
    after? beginning text = some rest ↔ text = beginning ++ rest := by
  induction beginning generalizing text with
  | nil => exact ⟨fun h => Option.some.inj h, fun h => congrArg some h⟩
  | cons b beginning ih =>
    cases text with
    | nil => exact ⟨nofun, nofun⟩
    | cons c text =>
      rw [after?, List.cons_append, List.cons.injEq]
      split_ifs with hsame
      · rw [ih, eq_comm (a := c), and_iff_right hsame]
      · exact ⟨nofun, fun h => absurd h.1.symm hsame⟩

theorem textual_of_component {segment : List Char} {c : Component} (h : component segment = .ok c) :
    c.Textual := by
  unfold component at h
  split at h
  · split at h
    · cases h
    · split at h
      · cases h
      · next digest _ =>
        cases h
        exact Or.inr ⟨rfl, digest.length_bytes⟩
  · split at h <;> cases h
    exact Or.inl rfl

theorem component_toUriChars {c : Component} (h : c.Textual) : component c.toUriChars = .ok c := by
  obtain ⟨typ, value⟩ := c
  obtain rfl | ⟨rfl, hlength⟩ : typ = Code.genericComponent ∨
    typ = Code.digestComponent ∧ value.length = 32 := h
  · have hkey : after? "sha256digest=".toList (escape value) = none := by
      rw [Option.eq_none_iff_forall_ne_some]
      intro rest hrest
      have hequals := (unmarked_escape value).equals
      rw [after?_eq_some_iff.1 hrest] at hequals
      exact hequals (List.mem_append_left _ (by decide))
    have hchars : toUriChars ⟨Code.genericComponent, value⟩ = escape value := rfl
    rw [hchars, component, hkey, unescapeBytes?_escape]
    simp only [dropDots_setApart, generic]
  · have hchars : toUriChars ⟨Code.digestComponent, value⟩ =
        "sha256digest=".toList ++ Bytes.hexDigits value := rfl
    rw [hchars, component, after?_eq_some_iff.2 rfl]
    simp only [Bytes.ofHexDigits?_hexDigits, Digest.ofBytes?, hlength, dif_pos, ofDigest]

end Component

/-! ## Names -/

namespace Uri

theorem pieces_append {text rest piece : List Char} {others : List (List Char)}
    (h : '/' ∉ text) (hrest : pieces rest = piece :: others) :
    pieces (text ++ rest) = (text ++ piece) :: others := by
  induction text with
  | nil => exact hrest
  | cons c text ih =>
    obtain ⟨hc, htext⟩ := not_or.1 (mt List.mem_cons.2 h)
    rw [List.cons_append, pieces, if_neg (Ne.symm hc), ih htext]
    rfl

/-- A text with a slash before each part has these parts for its pieces, behind an empty one. -/
theorem pieces_flatMap {parts : List (List Char)} (h : ∀ part ∈ parts, '/' ∉ part) :
    pieces (parts.flatMap ('/' :: ·)) = [] :: parts := by
  induction parts with
  | nil => rfl
  | cons part parts ih =>
    obtain ⟨hpart, hparts⟩ := List.forall_mem_cons.1 h
    rw [List.flatMap_cons, List.cons_append, pieces, if_pos rfl,
      pieces_append hpart (ih hparts), List.append_nil]

theorem after?_flatMap (parts : List (List Char)) :
    after? "ndn:".toList (parts.flatMap ('/' :: ·)) = none := by
  cases parts <;> rfl

/-- A path with a slash before each of its segments is divided into them. -/
theorem segments_flatMap {parts : List (List Char)}
    (h : ∀ part ∈ parts, '/' ∉ part ∧ part ≠ []) :
    segments (parts.flatMap ('/' :: ·)) = parts := by
  rw [segments, after?_flatMap, Option.getD_none, pieces_flatMap fun part hpart => (h part hpart).1]
  have hfirst : (([] : List Char) :: parts).filter (fun piece => !piece.isEmpty) =
      parts.filter fun piece => !piece.isEmpty := rfl
  rw [hfirst, List.filter_eq_self]
  intro part hpart
  simpa using (h part hpart).2

end Uri

namespace Name

open Uri

/-- Whether a name is of components that segments are read as. -/
def Textual (name : Name) : Prop := ∀ c ∈ name.components, c.Textual

/-- The segments of a name as it is written are what its components are written as. -/
theorem segments_toUriChars (name : Name) :
    segments name.toUriChars = name.components.map Component.toUriChars := by
  obtain ⟨components⟩ := name
  cases components with
  | nil => rfl
  | cons c components =>
    have hpath : toUriChars ⟨c :: components⟩ =
        ((c :: components).map Component.toUriChars).flatMap ('/' :: ·) := by
      rw [List.flatMap_map]
      rfl
    rw [hpath]
    apply segments_flatMap
    intro part hpart
    obtain ⟨d, -, rfl⟩ := List.mem_map.1 hpart
    exact ⟨d.slash_not_mem_toUriChars, d.toUriChars_ne_nil⟩

theorem eq_of_toUri_eq {a b : Name} (h : a.toUri = b.toUri) : a = b := by
  have hchars : a.toUriChars = b.toUriChars := String.ofList_injective h
  have hsegments := congrArg segments hchars
  rw [segments_toUriChars, segments_toUriChars] at hsegments
  obtain ⟨cs⟩ := a
  obtain ⟨ds⟩ := b
  exact congrArg mk (List.map_injective_iff.2 (fun _ _ => Component.eq_of_toUriChars_eq) hsegments)

theorem ofUri_eq_ok_iff {text : String} {name : Name} :
    ofUri text = .ok name ↔
      List.Forall₂ (fun segment c => component segment = .ok c) (segments text.toList)
        name.components := by
  rw [ofUri, map_eq_ok, ← mapM_eq_ok_iff_forall₂]
  constructor
  · rintro ⟨cs, hcs, rfl⟩
    exact hcs
  · intro h
    exact ⟨name.components, h, rfl⟩

theorem textual_of_ofUri {text : String} {name : Name} (h : ofUri text = .ok name) :
    name.Textual := by
  have hread := (ofUri_eq_ok_iff.1 h).flip.imp fun c segment hc =>
    And.intro (Component.textual_of_component hc) hc
  exact ((List.forall₂_and_left _ _).1 hread).1

theorem ofUri_toUri {name : Name} (h : name.Textual) : ofUri name.toUri = .ok name := by
  rw [ofUri_eq_ok_iff, toUri, String.toList_ofList, segments_toUriChars, List.forall₂_map_left_iff,
    List.forall₂_same]
  exact fun c hc => Component.component_toUriChars (h c hc)

/-- A name of generic components and digests, with any bytes for values, is read back from its
path, and no other name is. No two names, of whatever components, have the same path. So what was
read from any text is read again from its own path. -/
theorem uri_is_faithful :
    (∀ name : Name, ofUri name.toUri = .ok name ↔ name.Textual) ∧
      (∀ a b : Name, a.toUri = b.toUri → a = b) ∧
      ∀ (text : String) (name : Name), ofUri text = .ok name → ofUri name.toUri = .ok name := by
  refine ⟨fun name => ⟨textual_of_ofUri, ofUri_toUri⟩, fun a b => eq_of_toUri_eq, ?_⟩
  intro text name h
  exact ofUri_toUri (textual_of_ofUri h)

/-- Values that look like other forms: none, three dots, a key with its sign, and a slash; and a
text with a scheme, two slashes in a row and an escape that was not needed. -/
theorem uri_is_faithful_of_lookalikes :
    let name : Name :=
      ⟨[.generic [], .ofText "...", .ofText "9=x", .ofText "/", ⟨1, List.replicate 32 0xAB⟩]⟩
    let typed : Name := ⟨[⟨9, Bytes.ofText "x"⟩]⟩
    let read : Name := ⟨[.ofText "a", .ofText "."]⟩
    name.Textual ∧ ofUri name.toUri = .ok name ∧
      (⟨[.ofText "9=x"]⟩ : Name).toUri ≠ typed.toUri ∧ ofUri "ndn:a//%2e" = .ok read ∧
      ofUri read.toUri = .ok read := by
  intro name typed read
  have htextual : name.Textual := by
    unfold Textual Component.Textual
    decide
  have hread : ofUri "ndn:a//%2e" = .ok read := by decide
  obtain ⟨hback, hinjective, hagain⟩ := uri_is_faithful
  exact ⟨htextual, (hback name).2 htextual, mt (hinjective _ _) (by decide), hread,
    hagain _ _ hread⟩

end Name

end NamedData
