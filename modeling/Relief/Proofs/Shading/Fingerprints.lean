import Relief.Proofs.Shading.Source

/-!
# Fingerprints

Absorbing a byte can be undone, as exclusive or is its own inverse and the multiplier has an inverse
among words. So states that differ stay apart, whatever is absorbed afterwards.

* `release`: **the state before a byte**, told from the state after it;
* `absorb_bijective`, `absorbAll_bijective`: absorbing is a bijection of the states;
* `DifferInOne`: lists that differ in one place;
* `Fragment.textures_eq_of_differInOne`: **sources that differ in one byte** declare as many textures;
* `fingerprints_tell_one_byte`: so programs whose sources differ in one byte have different
  fingerprints.
-/

namespace Relief

/-! ## 1. States -/

namespace Fingerprint

/-- The inverse of the multiplier among words. -/
def inverse : UInt64 :=
  0xce965057aff6957b

theorem prime_mul_inverse : prime * inverse = 1 := by
  decide

/-- The state before a byte was absorbed. -/
def release (state : UInt64) (byte : UInt8) : UInt64 :=
  (state * inverse) ^^^ byte.toUInt64

/-- **What has been absorbed can be released.** -/
theorem release_absorb (state : UInt64) (byte : UInt8) :
    release (absorb state byte) byte = state := by
  rw [release, absorb, UInt64.mul_assoc, prime_mul_inverse, UInt64.mul_one, UInt64.xor_assoc,
    UInt64.xor_self, UInt64.xor_zero]

/-- What has been released can be absorbed. -/
theorem absorb_release (state : UInt64) (byte : UInt8) :
    absorb (release state byte) byte = state := by
  rw [absorb, release, UInt64.xor_assoc, UInt64.xor_self, UInt64.xor_zero, UInt64.mul_assoc,
    UInt64.mul_comm inverse, prime_mul_inverse, UInt64.mul_one]

/-- **Absorbing a byte is a bijection of the states.** -/
theorem absorb_bijective (byte : UInt8) : Function.Bijective fun state => absorb state byte :=
  Function.bijective_iff_has_inverse.mpr
    ⟨fun state => release state byte, fun state => release_absorb state byte,
      fun state => absorb_release state byte⟩

/-- **So is absorbing any bytes.** -/
theorem absorbAll_bijective (bytes : List UInt8) :
    Function.Bijective fun state => absorbAll state bytes := by
  induction bytes with
  | nil => exact Function.bijective_id
  | cons byte rest ih => exact ih.comp (absorb_bijective byte)

theorem absorbAll_append (state : UInt64) (front rest : List UInt8) :
    absorbAll state (front ++ rest) = absorbAll (absorbAll state front) rest := by
  simp [absorbAll]

/-- Two bytes lead from one state to two. -/
theorem absorb_ne (state : UInt64) {a b : UInt8} (h : a ≠ b) : absorb state a ≠ absorb state b := by
  intro same
  have words := congrArg (· * inverse) same
  simp only [absorb, UInt64.mul_assoc, prime_mul_inverse, UInt64.mul_one, UInt64.xor_right_inj]
    at words
  exact h (UInt8.toUInt64_inj.mp words)

end Fingerprint

/-! ## 2. One difference -/

/-- Two lists that differ in one place, and agree before and behind it. -/
def DifferInOne {α : Type} (l l' : List α) : Prop :=
  ∃ front a b rest, a ≠ b ∧ l = front ++ a :: rest ∧ l' = front ++ b :: rest

namespace DifferInOne

variable {α : Type} {l l' : List α}

theorem symm (h : DifferInOne l l') : DifferInOne l' l := by
  obtain ⟨front, a, b, rest, ne, rfl, rfl⟩ := h
  exact ⟨front, b, a, rest, ne.symm, rfl, rfl⟩

theorem getElem?_behind (front rest : List α) (i : Nat) :
    (front ++ rest)[front.length + i]? = rest[i]? := by
  rw [List.getElem?_append_right (Nat.le_add_right _ _), Nat.add_sub_cancel_left]

/-- All places but one are the same. -/
theorem exists_place (h : DifferInOne l l') : ∃ k, ∀ i : Nat, i ≠ k → l[i]? = l'[i]? := by
  obtain ⟨front, a, b, rest, -, rfl, rfl⟩ := h
  refine ⟨front.length, fun i hi => ?_⟩
  rcases Nat.lt_or_gt_of_ne hi with before | behind
  · rw [List.getElem?_append_left before, List.getElem?_append_left before]
  · obtain ⟨k, rfl⟩ := Nat.exists_eq_add_of_lt behind
    rw [Nat.add_assoc, getElem?_behind, getElem?_behind]
    rfl

/-- Lists that differ in two places do not differ in one. -/
theorem false_of_two {front : List α} (h : DifferInOne (front ++ l) (front ++ l')) {i j : Nat}
    (ne : i ≠ j) (hi : l[i]? ≠ l'[i]?) (hj : l[j]? ≠ l'[j]?) : False := by
  obtain ⟨k, same⟩ := h.exists_place
  have behind (i : Nat) (ne : front.length + i ≠ k) : l[i]? = l'[i]? := by
    have place := same _ ne
    rwa [getElem?_behind, getElem?_behind] at place
  by_cases hk : front.length + i = k
  · exact hj (behind j (by omega))
  · exact hi (behind i hk)

end DifferInOne

/-- **States tell lists apart that differ in one byte**, and stay apart whatever follows. -/
theorem Fingerprint.absorbAll_ne {bytes bytes' : List UInt8} (h : DifferInOne bytes bytes')
    (state : UInt64) (rest : List UInt8) :
    absorbAll state (bytes ++ rest) ≠ absorbAll state (bytes' ++ rest) := by
  obtain ⟨front, a, b, behind, ne, rfl, rfl⟩ := h
  simp only [List.append_assoc, List.cons_append, absorbAll_append]
  exact (absorbAll_bijective (behind ++ rest)).injective.ne (absorb_ne _ ne)

/-! ## 3. Sources in bytes -/

namespace Fingerprint

theorem toList_loop (bytes : ByteArray) (i : Nat) (r : List UInt8) :
    ByteArray.toList.loop bytes i r = r.reverse ++ bytes.data.toList.drop i := by
  fun_induction ByteArray.toList.loop bytes i r with
  | case1 i r inside ih =>
    have place : i < bytes.data.toList.length := inside
    have byte : bytes.get! i = bytes.data.toList[i] := getElem!_pos bytes.data i inside
    rw [ih, List.drop_eq_getElem_cons place, List.reverse_cons, List.append_assoc, byte]
    rfl
  | case2 i r outside =>
    have behind : bytes.data.toList.length ≤ i := Nat.le_of_not_lt outside
    rw [List.drop_eq_nil_of_le behind, List.append_nil]

/-- **The bytes of a text** are those of its characters, one after another. -/
theorem utf8_eq (text : String) : utf8 text = text.toList.flatMap String.utf8EncodeChar := by
  have encoded : text.toUTF8 = (text.toList.flatMap String.utf8EncodeChar).toByteArray :=
    String.utf8Encode_toList.symm
  rw [utf8, ByteArray.toList, toList_loop, encoded, List.toList_data_toByteArray]
  rfl

theorem utf8_append (a b : String) : utf8 (a ++ b) = utf8 a ++ utf8 b := by
  simp only [utf8_eq, String.toList_append, List.flatMap_append]

end Fingerprint

/-! ## 4. Sources that differ in one byte -/

namespace Wgsl.Fragment

open Fingerprint (utf8 utf8_eq)

/-- The bytes of characters. -/
def bytesOf (text : List Char) : List UInt8 :=
  text.flatMap String.utf8EncodeChar

@[simp] theorem bytesOf_append (a b : List Char) : bytesOf (a ++ b) = bytesOf a ++ bytesOf b :=
  List.flatMap_append

/-- Bytes that differ in two places from those that a declaration of a texture begins with. -/
def ShunsTexture (bytes : List UInt8) : Prop :=
  ∀ rest, ∃ i j : Nat, i ≠ j ∧ bytes[i]? ≠ (bytesOf "@gro".toList ++ rest)[i]? ∧
    bytes[j]? ≠ (bytesOf "@gro".toList ++ rest)[j]?

theorem bytesOf_stageText (f : Fragment) :
    ∃ rest, bytesOf f.stageText = 64 :: 102 :: 114 :: 97 :: rest := by
  obtain ⟨rest, text⟩ := f.stageText_eq
  rw [text]
  exact ⟨bytesOf rest, rfl⟩

theorem bytesOf_inverseText : ∃ rest, bytesOf (inverseText true) = 102 :: 110 :: rest := by
  obtain ⟨rest, text⟩ := inverseText_true
  rw [text]
  exact ⟨bytesOf rest, rfl⟩

/-- **What follows the declarations** cannot be taken for one by a single change. -/
theorem shunsTexture (f : Fragment) :
    ShunsTexture (bytesOf ((if f.textures = 0 then "" else "\n").toList ++
      (inverseText f.invertsMatrices ++ f.stageText))) := by
  have declaration : bytesOf "@gro".toList = [64, 103, 114, 111] := rfl
  have break_ : bytesOf "\n".toList = [10] := rfl
  have nothing : bytesOf "".toList = [] := rfl
  have absent : bytesOf (inverseText false) = [] := rfl
  obtain ⟨stage, hs⟩ := f.bytesOf_stageText
  obtain ⟨inverse, hi⟩ := bytesOf_inverseText
  intro rest
  -- the second byte is another one in any case
  split <;> cases f.invertsMatrices <;>
    simp only [bytesOf_append, declaration, break_, nothing, absent, hs, hi]
  · exact ⟨3, 1, by decide, by simp, by simp⟩
  · exact ⟨0, 1, by decide, by simp, by simp⟩
  · exact ⟨0, 1, by decide, by simp, by simp⟩
  · exact ⟨0, 1, by decide, by simp, by simp⟩

theorem bytesOf_textureLine (binding : Nat) :
    ∃ rest, bytesOf (textureLine binding).toList = bytesOf "@gro".toList ++ rest := by
  obtain ⟨rest, text⟩ := toList_textureLine binding
  rw [text]
  exact ⟨bytesOf rest, rfl⟩

/-- Sources with more textures differ in more than one byte. -/
theorem not_differInOne_of_lt {f f' : Fragment} (lt : f.textures < f'.textures)
    (front : List UInt8) : ¬ DifferInOne (front ++ utf8 f.text) (front ++ utf8 f'.text) := by
  intro h
  obtain ⟨behind, declared⟩ := textureText_of_lt lt
    ((if f'.textures = 0 then "" else "\n").toList ++
      (inverseText f'.invertsMatrices ++ f'.stageText))
  obtain ⟨rest, line⟩ := bytesOf_textureLine f.textures
  obtain ⟨i, j, ne, hi, hj⟩ := f.shunsTexture (rest ++ bytesOf behind)
  have bytes (f : Fragment) : utf8 f.text = bytesOf f.text.toList := utf8_eq f.text
  simp only [bytes, toList_text, declared, bytesOf_append, line, List.append_assoc] at h hi hj
  rw [← List.append_assoc, ← List.append_assoc front] at h
  exact h.false_of_two ne hi hj

/-- **Sources that differ in one byte declare as many textures.** -/
theorem textures_eq_of_differInOne {f f' : Fragment} {front : List UInt8}
    (h : DifferInOne (front ++ utf8 f.text) (front ++ utf8 f'.text)) :
    f.textures = f'.textures := by
  rcases Nat.lt_trichotomy f.textures f'.textures with lt | same | lt
  · exact absurd h (not_differInOne_of_lt lt front)
  · exact same
  · exact absurd h.symm (not_differInOne_of_lt lt front)

end Wgsl.Fragment

/-! ## 5. Programs -/

namespace Shading.Program

open Fingerprint (start absorbAll absorbAll_append littleEndian utf8 utf8_append)

/-- The sources of both stages, one after the other. -/
def sources (p : Program) : String :=
  Wgsl.vertexStage ++ p.source

theorem fingerprint_eq (p : Program) :
    p.fingerprint = absorbAll start (utf8 p.sources ++ littleEndian p.inputs.length.toUInt32) := by
  rw [sources, utf8_append, absorbAll_append, absorbAll_append]
  rfl

/-- **Programs whose sources differ in one byte have different fingerprints.** -/
theorem fingerprint_ne {p p' : Program} (h : DifferInOne (utf8 p.sources) (utf8 p'.sources)) :
    p.fingerprint ≠ p'.fingerprint := by
  have parts := h
  rw [sources, sources, utf8_append, utf8_append] at parts
  have inputs : p.inputs.length = p'.inputs.length :=
    Wgsl.Fragment.textures_eq_of_differInOne parts
  rw [fingerprint_eq, fingerprint_eq, inputs]
  exact Fingerprint.absorbAll_ne h start _

end Shading.Program

open Fingerprint (absorb absorbAll utf8)

/-- **Fingerprints tell one byte.** Absorbing a byte is a bijection of the states. So states that differ
    still do after any bytes, and lists of bytes that differ in one of them lead from one state to two.
    Programs whose sources, taken together, differ in exactly one byte have different fingerprints, as
    they have the same number of textures. -/
theorem fingerprints_tell_one_byte :
    (∀ byte, Function.Bijective fun state => absorb state byte) ∧
    (∀ bytes state state', state ≠ state' → absorbAll state bytes ≠ absorbAll state' bytes) ∧
    (∀ state front a b rest, a ≠ b →
      absorbAll state (front ++ a :: rest) ≠ absorbAll state (front ++ b :: rest)) ∧
    ∀ p p' : Shading.Program, DifferInOne (utf8 p.sources) (utf8 p'.sources) →
      p.fingerprint ≠ p'.fingerprint := by
  refine ⟨Fingerprint.absorb_bijective, ?_, ?_, fun p p' => Shading.Program.fingerprint_ne⟩
  · intro bytes state state' ne
    exact (Fingerprint.absorbAll_bijective bytes).injective.ne ne
  · intro state front a b rest ne
    have differ : DifferInOne (front ++ a :: rest) (front ++ b :: rest) :=
      ⟨front, a, b, rest, ne, rfl, rfl⟩
    simpa using Fingerprint.absorbAll_ne differ state []

/-- A program that draws one number. -/
def pebble (n : Int32) : Shading.Program :=
  .lower [⟨0, .i32, .integer n⟩] 0 ⟨1, 1⟩

/-- Two programs whose sources differ in one digit. -/
theorem pebbles_differ_in_one : DifferInOne (utf8 (pebble 1).sources) (utf8 (pebble 2).sources) := by
  have digits : ∃ front rest : String,
      (pebble 1).sources = front ++ ("1" ++ rest) ∧ (pebble 2).sources = front ++ ("2" ++ rest) :=
    ⟨Wgsl.vertexStage ++ "@fragment\n" ++
      "fn fs(@builtin(position) frag: vec4<f32>) -> @location(0) vec4<f32> \x7b\n" ++
      "  let px = vec2<i32>(floor(frag.xy));\n" ++ "  let v0: i32 = ",
    "i;\n  return vec4<f32>(vec3<f32>(f32(v0)), 1.0);\n\x7d\n",
      by decide +kernel, by decide +kernel⟩
  obtain ⟨front, rest, one, two⟩ := digits
  have digit : utf8 "1" = [49] := Fingerprint.utf8_eq "1"
  have digit' : utf8 "2" = [50] := Fingerprint.utf8_eq "2"
  refine ⟨utf8 front, 49, 50, utf8 rest, by decide, ?_, ?_⟩
  · rw [one, Fingerprint.utf8_append, Fingerprint.utf8_append, digit]
    rfl
  · rw [two, Fingerprint.utf8_append, Fingerprint.utf8_append, digit']
    rfl

theorem pebbles_are_told_apart :
    (0 : UInt64) ≠ 1 ∧ absorbAll 0 [7, 0] ≠ absorbAll 1 [7, 0] ∧
    (49 : UInt8) ≠ 50 ∧ absorbAll 0 ([118] ++ 49 :: [105]) ≠ absorbAll 0 ([118] ++ 50 :: [105]) ∧
    DifferInOne (utf8 (pebble 1).sources) (utf8 (pebble 2).sources) ∧
    (pebble 1).fingerprint ≠ (pebble 2).fingerprint := by
  obtain ⟨-, states, lists, programs⟩ := fingerprints_tell_one_byte
  have zero : (0 : UInt64) ≠ 1 := by decide
  have digits : (49 : UInt8) ≠ 50 := by decide
  exact ⟨zero, states [7, 0] 0 1 zero, digits, lists 0 [118] 49 50 [105] digits,
    pebbles_differ_in_one, programs _ _ pebbles_differ_in_one⟩

end Relief
