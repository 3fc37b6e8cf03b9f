import Mathlib.Data.List.Basic
import Mathlib.Data.String.Basic

/-!
# Bytes of a text

`utf8Bytes` is the UTF-8 encoding of a text as a list of bytes. A byte below 128 stands only
for the character with that number (`mem_utf8Bytes`), and a text whose bytes are the first
bytes of another text is the beginning of it (`isPrefix_of_utf8Bytes`).
-/

/-- The bytes of a list of characters. -/
def utf8Bytes (cs : List Char) : List UInt8 :=
  cs.flatMap String.utf8EncodeChar

@[simp] theorem utf8Bytes_append (cs ds : List Char) :
    utf8Bytes (cs ++ ds) = utf8Bytes cs ++ utf8Bytes ds :=
  List.flatMap_append

theorem toUTF8_toList (s : String) : s.toUTF8.data.toList = utf8Bytes s.toList := by
  have hbytes : s.toByteArray = s.toList.utf8Encode := by
    rw [← String.toByteArray_ofList, String.ofList_toList]
  rw [String.toUTF8, hbytes, List.utf8Encode, utf8Bytes, List.data_toByteArray]

/-- A character beyond ASCII has no ASCII byte. -/
theorem le_of_mem_utf8EncodeChar {b : UInt8} {c : Char} (hc : 128 ≤ c.toNat)
    (hb : b ∈ String.utf8EncodeChar c) : 128 ≤ b.toNat := by
  have hv : c.toNat = c.val.toNat := rfl
  rw [hv] at hc
  simp only [String.utf8EncodeChar] at hb
  split_ifs at hb
  · omega
  all_goals
    revert b
    simp only [List.forall_mem_cons, List.not_mem_nil, false_imp_iff, implies_true, and_true,
      UInt8.toNat_ofNat']
    omega

theorem mem_utf8EncodeChar {b : UInt8} {c : Char} (hb : b.toNat < 128) :
    b ∈ String.utf8EncodeChar c ↔ c.toNat = b.toNat := by
  have hv : c.toNat = c.val.toNat := rfl
  by_cases hc : c.val.toNat ≤ 127
  · have hmod : (UInt8.ofNat c.val.toNat).toNat = c.val.toNat := by
      rw [UInt8.toNat_ofNat']
      omega
    simp only [String.utf8EncodeChar, if_pos hc]
    rw [List.mem_singleton, ← UInt8.toNat_inj, hmod, hv]
    exact eq_comm
  · refine iff_of_false (fun hmem => ?_) (by omega)
    have := le_of_mem_utf8EncodeChar (by omega) hmem
    omega

/-- An ASCII byte stands for its character only. -/
theorem mem_utf8Bytes {b : UInt8} {cs : List Char} (hb : b.toNat < 128) :
    b ∈ utf8Bytes cs ↔ ∃ c ∈ cs, c.toNat = b.toNat := by
  simp only [utf8Bytes, List.mem_flatMap, mem_utf8EncodeChar hb]

theorem isPrefix_of_utf8Bytes {cs ds : List Char} {rest : List UInt8}
    (h : utf8Bytes cs ++ rest = utf8Bytes ds) : cs <+: ds := by
  refine List.isPrefix_of_utf8Encode_append_eq_utf8Encode rest.toByteArray ?_
  rw [List.utf8Encode, List.utf8Encode, ← List.toByteArray_append]
  exact congrArg List.toByteArray h
