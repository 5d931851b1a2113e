import Napastak.Textenc

/-! Well-formed UTF-8 under automatic detection. -/
namespace Napastak.Textenc
open Utf8 (tail WellFormed)
open String (utf8EncodeChar)

theorem contsShort : ∀ {k : Nat} {s : Bytes} (cp : Nat), s.length < k → conts k cp s = none
  | 0, _, _, h => absurd h (Nat.not_lt_zero _)
  | k + 1, [], _, _ => rfl
  | k + 1, cc :: s, cp, h => by
    rw [conts,contsShort _ (Nat.lt_of_succ_lt_succ h)]
    exact ite_self none

theorem payload {t : Nat} (h : t < 64) (cp : Nat) : cp <<< 6 ||| (UInt8.ofNat (t + 0x80) &&& 0x3F).toNat = cp * 64 + t := by
  have all : ∀ t < 64, (UInt8.ofNat (t + 0x80) &&& 0x3F).toNat = t := by decide
  rw [all t h,← Nat.shiftLeft_add_eq_or_of_lt h,Nat.shiftLeft_eq]

theorem contsTail {t : Nat} (h : t < 64) (k cp : Nat) (s : Bytes) :
    conts (k + 1) cp (UInt8.ofNat (t + 0x80) :: s) = conts k (cp * 64 + t) s := by
  rw [conts,if_pos (Utf8.tailByte h),payload h]

/-- The first byte of a longer character tells how many tails follow, and with them gives the character. -/
theorem charRead {c : Char} {b : UInt8} {bs : Bytes} (h : utf8EncodeChar c = b :: bs) (long : bs ≠ []) :
    ¬ b < 0x80 ∧ ∃ cp, lead b = some (bs.length,cp) ∧ illegal bs.length c.toNat = false ∧
      ∀ s, conts bs.length cp (bs ++ s) = some c.toNat := by
  have two : ∀ h < 32, ¬ UInt8.ofNat (h + 0xC0) < 0x80 ∧ lead (UInt8.ofNat (h + 0xC0)) = some (1,h) := by decide
  have three : ∀ h < 16, ¬ UInt8.ofNat (h + 0xE0) < 0x80 ∧ lead (UInt8.ofNat (h + 0xE0)) = some (2,h) := by decide
  have four : ∀ h < 8, ¬ UInt8.ofNat (h + 0xF0) < 0x80 ∧ lead (UInt8.ofNat (h + 0xF0)) = some (3,h) := by decide
  have valid : c.toNat ≤ 0x10FFFF ∧ ¬ (c.toNat ≥ 0xD800 ∧ c.toNat ≤ 0xDFFF) := by
    have num : c.val.toNat = c.toNat := rfl
    rcases c.valid with low | ⟨above,below⟩ <;> omega
  rcases Utf8.encoded c with ⟨_,eq⟩ | ⟨a,t,ha,ht,is,low,eq⟩ | ⟨a,t,u,ha,ht,hu,is,low,eq⟩ |
    ⟨a,t,u,v,ha,ht,hu,hv,is,low,eq⟩ <;> rw [eq] at h <;> cases h
  · exact absurd rfl long
  · refine ⟨(two a ha).1,a,(two a ha).2,?_,fun s => ?_⟩
    · simp only [illegal,decide_eq_false_iff_not,List.length_cons,List.length_nil]
      omega
    · rw [List.cons_append,List.length_singleton,contsTail ht,← is]
      rfl
  · refine ⟨(three a ha).1,a,(three a ha).2,?_,fun s => ?_⟩
    · simp only [illegal,decide_eq_false_iff_not,List.length_cons,List.length_nil]
      omega
    · rw [List.cons_append,List.cons_append,List.length_cons,contsTail ht,List.length_singleton,contsTail hu,← is]
      rfl
  · refine ⟨(four a ha).1,a,(four a ha).2,?_,fun s => ?_⟩
    · simp only [illegal,decide_eq_false_iff_not,List.length_cons,List.length_nil]
      omega
    · rw [List.cons_append,List.cons_append,List.cons_append,List.length_cons,contsTail ht,List.length_cons,contsTail hu,
        List.length_singleton,contsTail hv,← is]
      rfl

theorem charAccepted (c : Char) (s : Bytes) : textencIsUtf8 (utf8EncodeChar c ++ s) = textencIsUtf8 s := by
  obtain ⟨b,bs,eq,_,_,_,single⟩ := Utf8.headTails c
  rw [eq,List.cons_append,textencIsUtf8]
  by_cases long : bs = []
  · rw [if_pos (single long),long,List.nil_append]
  · obtain ⟨high,cp,first,legal,read⟩ := charRead eq long
    rw [if_neg high,first]
    simp only [read,legal,List.drop_left,Bool.not_false,Bool.true_and]

/-- A character cut short is rejected. -/
theorem pieceRejected {c : Char} {k : Nat} (pos : 0 < k) (lt : k < (utf8EncodeChar c).length) :
    textencIsUtf8 ((utf8EncodeChar c).take k) = false := by
  obtain ⟨b,bs,eq,_⟩ := Utf8.headTails c
  obtain ⟨k,rfl⟩ := Nat.exists_eq_succ_of_ne_zero (Nat.pos_iff_ne_zero.mp pos)
  rw [eq,List.length_cons] at lt
  have long : bs ≠ [] := fun e => by rw [e,List.length_nil] at lt; omega
  obtain ⟨high,cp,first,_⟩ := charRead eq long
  have short : (bs.take k).length < bs.length := by rw [List.length_take]; omega
  rw [eq,List.take_succ_cons,textencIsUtf8,if_neg high,first]
  simp only [contsShort cp short]

theorem charsAccepted (cs : List Char) (s : Bytes) :
    textencIsUtf8 (cs.flatMap utf8EncodeChar ++ s) = textencIsUtf8 s := by
  induction cs with
  | nil => rfl
  | cons c cs ih => rw [List.flatMap_cons,List.append_assoc,charAccepted,ih]

/-- A prefix passes for UTF-8 when no tail follows it. -/
theorem prefixAccepted {data : Bytes} (wf : WellFormed data) (n : Nat) :
    textencIsUtf8 (data.take n) = !data[n]?.any tail := by
  obtain ⟨cs,rfl⟩ := wf
  rw [← List.head?_drop]
  rcases Utf8.cut cs n with ⟨pre,post,_,taken,left⟩ | ⟨pre,c,post,k,_,pos,lt,taken,left⟩
  · have accepted := charsAccepted pre []
    rw [List.append_nil] at accepted
    rw [taken,left,accepted,textencIsUtf8]
    cases post with
    | nil => rfl
    | cons c post =>
      obtain ⟨b,bs,eq,first,_⟩ := Utf8.headTails c
      rw [List.flatMap_cons,eq,List.cons_append,List.head?_cons,Option.any_some,first]
      rfl
  · obtain ⟨b,bs,eq,_,_,tails,_⟩ := Utf8.headTails c
    rw [taken,left,charsAccepted,pieceRejected pos lt]
    obtain ⟨k,rfl⟩ := Nat.exists_eq_succ_of_ne_zero (Nat.pos_iff_ne_zero.mp pos)
    rw [eq] at lt ⊢
    rw [List.drop_succ_cons]
    have inside : k < bs.length := Nat.lt_of_succ_lt_succ lt
    have next : (bs.drop k).head? = some bs[k] := by
      rw [List.head?_drop,List.getElem?_eq_getElem]
    rw [List.head?_append,next,Option.some_or,Option.any_some,tails _ (List.getElem_mem _)]
    rfl

theorem startsPlain {data : Bytes} (wf : WellFormed data) : ∀ b ∈ data.head?, b < 0xFE := by
  obtain ⟨cs,rfl⟩ := wf
  intro b mem
  cases cs with
  | nil => contradiction
  | cons c cs =>
    obtain ⟨a,bs,eq,_,small,_⟩ := Utf8.headTails c
    rw [List.flatMap_cons,eq,List.cons_append,List.head?_cons] at mem
    cases mem
    exact small

theorem putGrows {cp : Nat} (h : 0x80 ≤ cp) : 2 ≤ (putUtf8 cp).length := by
  unfold putUtf8
  rw [if_neg (Nat.not_lt.mpr h)]
  split
  · exact Nat.le_refl 2
  split <;> simp

/-- A code page gives characters beyond ASCII only. -/
def Extends (tbl : List Nat) : Prop := ∀ u ∈ tbl, u = 0 ∨ 0x80 ≤ u

theorem byteGrows {tbl : List Nat} (ext : Extends tbl) (b : UInt8) :
    2 ≤ (putUtf8 (if lookup tbl b = 0 then 0xFFFD else lookup tbl b)).length := by
  refine putGrows ?_
  split
  · decide
  · rename_i some_
    exact (ext _ (lookupMem some_)).resolve_left some_

theorem singleGrows {tbl : List Nat} (ext : Extends tbl) : ∀ s : Bytes, s.length ≤ (fromSingleByte tbl s).length ∧
    ((∃ b ∈ s, ¬ b < 0x80) → s.length < (fromSingleByte tbl s).length)
  | [] => ⟨Nat.le_refl _,fun ⟨_,mem,_⟩ => absurd mem List.not_mem_nil⟩
  | b :: s => by
    obtain ⟨le,lt⟩ := singleGrows ext s
    have cons : (fromSingleByte tbl (b :: s)).length = (if b < 0x80 then 1 else
        (putUtf8 (if lookup tbl b = 0 then 0xFFFD else lookup tbl b)).length) + (fromSingleByte tbl s).length := by
      rw [fromSingleByte,List.flatMap_cons,List.length_append]
      split <;> rfl
    rw [cons,List.length_cons]
    by_cases low : b < 0x80
    · rw [if_pos low]
      refine ⟨by omega,fun ⟨d,mem,high⟩ => ?_⟩
      rcases List.mem_cons.mp mem with rfl | mem
      · exact absurd low high
      · have := lt ⟨d,mem,high⟩
        omega
    · rw [if_neg low]
      have := byteGrows ext b
      exact ⟨by omega,fun _ => by omega⟩

theorem singleChanges {tbl : List Nat} (ext : Extends tbl) {s : Bytes} (high : ∃ b ∈ s, ¬ b < 0x80) :
    fromSingleByte tbl s ≠ s := fun same => by
  have := (singleGrows ext s).2 high
  rw [same] at this
  omega

instance (tbl : List Nat) : Decidable (Extends tbl) := inferInstanceAs (Decidable (∀ u ∈ tbl, u = 0 ∨ 0x80 ≤ u))

theorem extendsCp1251 : Extends tableCp1251 := by decide +kernel
theorem extendsCp866 : Extends tableCp866 := by decide +kernel
theorem extendsKoi8r : Extends tableKoi8r := by decide +kernel

def withoutBom (data : Bytes) : Bytes := if [0xEF,0xBB,0xBF].isPrefixOf data then data.drop 3 else data

/-- The probe stops inside a character and scores in some code page. -/
def Mistaken (data : Bytes) : Prop :=
  textencBomLen data = 0 ∧ data[probeSize]?.any tail = true ∧
    (0 < encScore tableCp1251 (data.take probeSize) ∨ 0 < encScore tableCp866 (data.take probeSize) ∨
      0 < encScore tableKoi8r (data.take probeSize))

theorem otherMarks {data : Bytes} (wf : WellFormed data) :
    [0xFF,0xFE].isPrefixOf data = false ∧ [0xFE,0xFF].isPrefixOf data = false := by
  have first := startsPlain wf
  cases data with
  | nil => exact ⟨rfl,rfl⟩
  | cons b s =>
    have small : b < 0xFE := first b rfl
    constructor <;> rw [List.isPrefixOf,Bool.and_eq_false_iff] <;> left <;> rw [beq_eq_false_iff_ne] <;> rintro rfl <;>
      exact absurd small (by decide)

/-- A probe that stops inside a character has a byte beyond ASCII. -/
theorem probeHigh {data : Bytes} (wf : WellFormed data) {n : Nat} (inside : data[n]?.any tail = true) :
    ∃ b ∈ data.take n, ¬ b < 0x80 := by
  obtain ⟨cs,rfl⟩ := wf
  rw [← List.head?_drop] at inside
  rcases Utf8.cut cs n with ⟨pre,post,_,_,left⟩ | ⟨pre,c,post,k,_,pos,lt,taken,_⟩
  · rw [left] at inside
    cases post with
    | nil => contradiction
    | cons c post =>
      obtain ⟨b,bs,eq,first,_⟩ := Utf8.headTails c
      rw [List.flatMap_cons,eq,List.cons_append,List.head?_cons,Option.any_some,first] at inside
      contradiction
  · obtain ⟨b,bs,eq,_⟩ := Utf8.headTails c
    obtain ⟨k,rfl⟩ := Nat.exists_eq_succ_of_ne_zero (Nat.pos_iff_ne_zero.mp pos)
    rw [eq,List.length_cons] at lt
    have long : bs ≠ [] := fun e => by rw [e,List.length_nil] at lt; omega
    refine ⟨b,?_,(charRead eq long).1⟩
    rw [taken,eq,List.take_succ_cons]
    exact List.mem_append_right _ List.mem_cons_self

theorem bomOnly {data : Bytes} (wf : WellFormed data) :
    textencBomLen data = if [0xEF,0xBB,0xBF].isPrefixOf data then 3 else 0 := by
  obtain ⟨ffFe,feFf⟩ := otherMarks wf
  rw [textencBomLen,ffFe,feFf]
  rfl

theorem kept {data : Bytes} (wf : WellFormed data) {enc : TextEnc} (found : textencDetect data = enc)
    (plain : enc = .utf8 ∨ enc = .unknown) : (textencToUtf8 data .unknown).1 = withoutBom data := by
  have copied : (textencToUtf8 data .unknown).1 = data.drop (textencBomLen data) := by
    rcases plain with rfl | rfl <;> simp only [textencToUtf8,if_pos,found]
  rw [copied,bomOnly wf,withoutBom]
  split <;> rfl

theorem detectOthers {data : Bytes} (wf : WellFormed data) (not : ¬ Mistaken data) :
    textencDetect data = .utf8 ∨ textencDetect data = .unknown := by
  obtain ⟨ffFe,feFf⟩ := otherMarks wf
  have bom := bomOnly wf
  unfold textencDetect
  rw [ffFe,feFf]
  split
  · exact .inl rfl
  rename_i noBom
  rw [if_neg noBom] at bom
  simp only [Bool.false_eq_true,if_false]
  split
  · exact .inl rfl
  split
  · exact .inl rfl
  rename_i cut
  rw [prefixAccepted wf,Bool.not_eq_true',Bool.not_eq_false] at cut
  have low : encScore tableCp1251 (data.take probeSize) ≤ 0 ∧ encScore tableCp866 (data.take probeSize) ≤ 0 ∧
      encScore tableKoi8r (data.take probeSize) ≤ 0 := by
    refine ⟨?_,?_,?_⟩ <;> refine Int.not_lt.mp fun pos => not ⟨bom,cut,?_⟩
    · exact .inl pos
    · exact .inr (.inl pos)
    · exact .inr (.inr pos)
  rw [if_neg (Int.not_lt.mpr low.1),if_neg (Int.not_lt.mpr low.2.1),if_neg (Int.not_lt.mpr low.2.2)]
  refine .inr ?_
  split
  · rfl
  split <;> rfl

theorem detectMistaken {data : Bytes} (wf : WellFormed data) (mistaken : Mistaken data) :
    ∃ tbl, Extends tbl ∧ (textencToUtf8 data .unknown).1 = fromSingleByte tbl data := by
  obtain ⟨bom,cut,scores⟩ := mistaken
  obtain ⟨ffFe,feFf⟩ := otherMarks wf
  have noBom : ¬ [0xEF,0xBB,0xBF].isPrefixOf data = true := fun is => by
    rw [textencBomLen,if_pos is] at bom
    contradiction
  obtain ⟨b,mem,above⟩ := probeHigh wf cut
  have high : ((data.take probeSize).any fun b => b ≥ 0x80) = true :=
    List.any_eq_true.mpr ⟨b,mem,decide_eq_true (UInt8.not_lt.mp above)⟩
  have rejected := prefixAccepted wf probeSize
  rw [cut] at rejected
  have found : textencDetect data = .cp1251 ∨ textencDetect data = .cp866 ∨ textencDetect data = .koi8r := by
    unfold textencDetect
    rw [ffFe,feFf,if_neg noBom]
    simp only [high,rejected,Bool.false_eq_true,if_false,Bool.not_true]
    split
    · rw [if_pos (by omega)]
      exact .inl rfl
    split
    · rw [if_pos (by omega)]
      exact .inr (.inl rfl)
    · rw [if_pos (by omega)]
      exact .inr (.inr rfl)
  rcases found with is | is | is
  · exact ⟨_,extendsCp1251,by simp only [textencToUtf8,if_pos,is,bom,List.drop_zero]⟩
  · exact ⟨_,extendsCp866,by simp only [textencToUtf8,if_pos,is,bom,List.drop_zero]⟩
  · exact ⟨_,extendsKoi8r,by simp only [textencToUtf8,if_pos,is,bom,List.drop_zero]⟩

/-- Detection and conversion leave well-formed UTF-8 as it is, its mark aside, unless the probe mistakes it. -/
theorem utf8Kept {data : Bytes} (wf : WellFormed data) :
    (textencToUtf8 data .unknown).1 = withoutBom data ↔ ¬ Mistaken data := by
  constructor
  · intro same mistaken
    obtain ⟨tbl,ext,is⟩ := detectMistaken wf mistaken
    obtain ⟨b,mem,above⟩ := probeHigh wf mistaken.2.1
    have plain : withoutBom data = data := by
      have := mistaken.1
      rw [bomOnly wf] at this
      rw [withoutBom]
      split at this
      · contradiction
      · rename_i noBom
        exact if_neg noBom
    rw [is,plain] at same
    exact singleChanges ext ⟨b,List.mem_of_mem_take mem,above⟩ same
  · exact fun not => (detectOthers wf not).elim (fun is => kept wf is (.inl rfl)) fun is => kept wf is (.inr rfl)

theorem utf8KeptHi : WellFormed [0x68,0x69] ∧ ((textencToUtf8 [0x68,0x69] .unknown).1 = withoutBom [0x68,0x69] ↔
    ¬ Mistaken [0x68,0x69]) := by
  have wf : WellFormed [0x68,0x69] := ⟨[ 'h', 'i'],by decide⟩
  exact ⟨wf,utf8Kept wf⟩

/-- The letter zhe so many times: `D0 B6` in UTF-8. -/
def zhes : Nat → Bytes
  | 0 => []
  | n + 1 => 0xD0 :: 0xB6 :: zhes n

theorem zhesWell : ∀ n, zhes n = (List.replicate n 'ж').flatMap utf8EncodeChar
  | 0 => rfl
  | n + 1 => by
    rw [List.replicate_succ,List.flatMap_cons,← zhesWell n]
    rfl

theorem zhesCut : ∀ n m, (zhes (n + (m + 1))).take (2 * n + 1) = zhes n ++ [0xD0] ∧
    (zhes (n + (m + 1)))[2 * n + 1]? = some 0xB6
  | 0, m => by
    rw [Nat.zero_add]
    exact ⟨rfl,rfl⟩
  | n + 1, m => by
    rw [Nat.succ_add]
    obtain ⟨taken,next⟩ := zhesCut n m
    exact ⟨congrArg (0xD0 :: 0xB6 :: ·) taken,next⟩

theorem scoreFrom (tbl : List Nat) (s : Bytes) (i : Int) :
    s.foldl (fun score b => score + byteScore tbl b) i = i + encScore tbl s := by
  unfold encScore
  induction s generalizing i with
  | nil => simp
  | cons b s ih => rw [List.foldl_cons,List.foldl_cons,ih,ih (0 + _),Int.zero_add,Int.add_assoc]

theorem scoreZhes : ∀ n, 0 < encScore tableCp1251 (zhes n ++ [0xD0])
  | 0 => by decide
  | n + 1 => by
    have pair : (0 : Int) < byteScore tableCp1251 0xD0 + byteScore tableCp1251 0xB6 := by decide
    have rest := scoreZhes n
    rw [zhes,encScore,List.cons_append,List.cons_append,List.foldl_cons,List.foldl_cons,scoreFrom]
    omega

/-- A letter of one byte and 32768 of two: the probe ends inside one of them. -/
theorem utf8Misread : ¬ ∀ data, WellFormed data → (textencToUtf8 data .unknown).1 = withoutBom data := by
  intro all
  obtain ⟨half,odd⟩ : ∃ n, probeSize = 2 * n + 1 + 1 := ⟨32767,rfl⟩
  have wf : WellFormed (0x61 :: zhes (half + (0 + 1))) :=
    ⟨'a' :: List.replicate (half + (0 + 1)) 'ж',by rw [List.flatMap_cons,← zhesWell]; rfl⟩
  obtain ⟨taken,next⟩ := zhesCut half 0
  have mistaken : Mistaken (0x61 :: zhes (half + (0 + 1))) := by
    refine ⟨rfl,?_,.inl ?_⟩
    · rw [odd,List.getElem?_cons_succ,next]
      rfl
    · rw [odd,List.take_succ_cons,taken,encScore,List.foldl_cons,scoreFrom]
      have plain : byteScore tableCp1251 0x61 = 0 := rfl
      rw [plain,Int.zero_add,Int.zero_add]
      exact scoreZhes half
  obtain ⟨tbl,ext,is⟩ := detectMistaken wf mistaken
  obtain ⟨b,mem,above⟩ := probeHigh wf mistaken.2.1
  exact singleChanges ext ⟨b,List.mem_of_mem_take mem,above⟩ (is.symm.trans (all _ wf))

end Napastak.Textenc
