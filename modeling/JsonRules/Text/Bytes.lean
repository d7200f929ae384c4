/-!
Texts as bytes. A text is held in UTF-8, where a character takes one byte to four, and it can be cut only
between two characters (`upTo?_append`).
-/
namespace JsonRules.Text

def bytes (s : String) : List UInt8 := s.toByteArray.data.toList

/-- The text of the first `n` bytes, unless a character is cut there. -/
def upTo? (s : String) (n : Nat) : Option String :=
  if h : String.Pos.Raw.IsValid s ⟨n⟩ then some (s.sliceTo (s.pos ⟨n⟩ h)).copy else none

theorem bytes_ofList (cs : List Char) :
    bytes (String.ofList cs) = cs.flatMap String.utf8EncodeChar := by
  rw [bytes, String.toByteArray_ofList, List.utf8Encode, List.toList_data_toByteArray]

theorem length_bytes (s : String) : (bytes s).length = s.utf8ByteSize := by
  rw [bytes, Array.length_toList, ByteArray.size_data, String.size_toByteArray]

theorem upTo?_append (s t : String) : upTo? (s ++ t) (bytes s).length = some s := by
  have hvalid : String.Pos.Raw.IsValid (s ++ t) ⟨(bytes s).length⟩ := by
    refine String.Pos.Raw.isValid_iff_exists_append.mpr ⟨s, t, rfl, ?_⟩
    exact String.Pos.Raw.ext (length_bytes s)
  have hsplits : ((s ++ t).pos ⟨(bytes s).length⟩ hvalid).Splits s t :=
    ⟨rfl, String.Pos.Raw.ext (length_bytes s)⟩
  rw [upTo?, dif_pos hvalid, ((s ++ t).pos _ hvalid).splits.eq_left hsplits]

end JsonRules.Text
