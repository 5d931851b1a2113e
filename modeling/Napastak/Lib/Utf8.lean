import Mathlib.Data.List.Basic

/-! UTF-8 by characters: the bytes of one character, and where a text of characters can be cut. -/
namespace Napastak.Utf8
open String (utf8EncodeChar)

/-- `10xxxxxx`. -/
def tail (b : UInt8) : Bool := b &&& 0xC0 = 0x80

/-- The encoding of some characters. -/
def WellFormed (s : List UInt8) : Prop := ∃ cs : List Char, s = cs.flatMap utf8EncodeChar

/-- The bytes of a character of one to four bytes, and its number in terms of their payloads. -/
theorem encoded (c : Char) :
    (c.toNat < 0x80 ∧ utf8EncodeChar c = [UInt8.ofNat c.toNat]) ∨
    (∃ h t, h < 32 ∧ t < 64 ∧ c.toNat = h * 64 + t ∧ 0x80 ≤ c.toNat ∧
      utf8EncodeChar c = [UInt8.ofNat (h + 0xC0),UInt8.ofNat (t + 0x80)]) ∨
    (∃ h t u, h < 16 ∧ t < 64 ∧ u < 64 ∧ c.toNat = (h * 64 + t) * 64 + u ∧ 0x800 ≤ c.toNat ∧
      utf8EncodeChar c = [UInt8.ofNat (h + 0xE0),UInt8.ofNat (t + 0x80),UInt8.ofNat (u + 0x80)]) ∨
    ∃ h t u v, h < 8 ∧ t < 64 ∧ u < 64 ∧ v < 64 ∧ c.toNat = ((h * 64 + t) * 64 + u) * 64 + v ∧ 0x10000 ≤ c.toNat ∧
      utf8EncodeChar c = [UInt8.ofNat (h + 0xF0),UInt8.ofNat (t + 0x80),UInt8.ofNat (u + 0x80),UInt8.ofNat (v + 0x80)] := by
  have range : c.toNat < 0x110000 := by
    rcases c.valid with low | ⟨_,high⟩
    · exact Nat.lt_trans low (by decide)
    · exact high
  have num : c.val.toNat = c.toNat := rfl
  unfold utf8EncodeChar
  simp only [num]
  split
  · exact .inl ⟨by omega,rfl⟩
  split
  · exact .inr (.inl ⟨_,_,by omega,Nat.mod_lt _ (by decide),by omega,by omega,rfl⟩)
  split
  · exact .inr (.inr (.inl ⟨_,_,_,by omega,Nat.mod_lt _ (by decide),Nat.mod_lt _ (by decide),by omega,by omega,rfl⟩))
  · exact .inr (.inr (.inr ⟨_,_,_,_,Nat.mod_lt _ (by decide),Nat.mod_lt _ (by decide),Nat.mod_lt _ (by decide),
      Nat.mod_lt _ (by decide),by omega,by omega,rfl⟩))

theorem tailByte {t : Nat} (h : t < 64) : tail (UInt8.ofNat (t + 0x80)) = true := by
  have all : ∀ t < 64, tail (UInt8.ofNat (t + 0x80)) = true := by decide
  exact all t h

/-- A character starts with no tail, no `FE` and no `FF`, and goes on with tails. -/
theorem headTails (c : Char) : ∃ b bs, utf8EncodeChar c = b :: bs ∧ tail b = false ∧ b < 0xFE ∧
    (∀ t ∈ bs, tail t = true) ∧ (bs = [] → b < 0x80) := by
  have heads : (∀ v < 0x80, tail (UInt8.ofNat v) = false ∧ UInt8.ofNat v < 0x80) ∧
      ∀ v < 56, tail (UInt8.ofNat (v + 0xC0)) = false ∧ UInt8.ofNat (v + 0xC0) < 0xFE := by
    constructor <;> decide
  rcases encoded c with ⟨low,eq⟩ | ⟨h,t,hh,ht,_,_,eq⟩ | ⟨h,t,u,hh,ht,hu,_,_,eq⟩ | ⟨h,t,u,v,hh,ht,hu,hv,_,_,eq⟩
  · obtain ⟨first,small⟩ := heads.1 c.toNat low
    exact ⟨_,_,eq,first,UInt8.lt_trans small (by decide),nofun,fun _ => small⟩
  · obtain ⟨first,small⟩ := heads.2 h (by omega)
    refine ⟨_,_,eq,first,small,fun b mem => ?_,nofun⟩
    rw [List.mem_singleton.mp mem]
    exact tailByte ht
  · obtain ⟨first,small⟩ := heads.2 (h + 32) (by omega)
    refine ⟨_,_,eq,first,small,fun b mem => ?_,nofun⟩
    simp only [List.mem_cons,List.not_mem_nil,or_false] at mem
    rcases mem with rfl | rfl
    · exact tailByte ht
    · exact tailByte hu
  · obtain ⟨first,small⟩ := heads.2 (h + 48) (by omega)
    refine ⟨_,_,eq,first,small,fun b mem => ?_,nofun⟩
    simp only [List.mem_cons,List.not_mem_nil,or_false] at mem
    rcases mem with rfl | rfl | rfl
    · exact tailByte ht
    · exact tailByte hu
    · exact tailByte hv

/-- A cut between two characters, or after some bytes of one. -/
theorem cut (cs : List Char) (n : Nat) :
    (∃ pre post, cs = pre ++ post ∧ (cs.flatMap utf8EncodeChar).take n = pre.flatMap utf8EncodeChar ∧
      (cs.flatMap utf8EncodeChar).drop n = post.flatMap utf8EncodeChar) ∨
    ∃ pre c post k, cs = pre ++ c :: post ∧ 0 < k ∧ k < (utf8EncodeChar c).length ∧
      (cs.flatMap utf8EncodeChar).take n = pre.flatMap utf8EncodeChar ++ (utf8EncodeChar c).take k ∧
      (cs.flatMap utf8EncodeChar).drop n = (utf8EncodeChar c).drop k ++ post.flatMap utf8EncodeChar := by
  induction cs generalizing n with
  | nil => exact .inl ⟨[],[],rfl,by simp,by simp⟩
  | cons c cs ih =>
    rw [List.flatMap_cons]
    by_cases inside : n < (utf8EncodeChar c).length
    · cases n with
      | zero => exact .inl ⟨[],c :: cs,rfl,rfl,List.flatMap_cons.symm⟩
      | succ n =>
        exact .inr ⟨[],c,cs,n + 1,rfl,Nat.succ_pos n,inside,
          by rw [List.take_append_of_le_length (by omega)]; rfl,by rw [List.drop_append_of_le_length (by omega)]⟩
    · obtain ⟨m,rfl⟩ := Nat.exists_eq_add_of_le (Nat.not_lt.mp inside)
      rw [List.take_length_add_append,List.drop_length_add_append]
      rcases ih m with ⟨pre,post,same,taken,left⟩ | ⟨pre,d,post,k,same,pos,lt,taken,left⟩
      · exact .inl ⟨c :: pre,post,by rw [same]; rfl,by rw [taken,List.flatMap_cons],left⟩
      · exact .inr ⟨c :: pre,d,post,k,by rw [same]; rfl,pos,lt,by rw [taken,List.flatMap_cons,List.append_assoc],left⟩

end Napastak.Utf8
