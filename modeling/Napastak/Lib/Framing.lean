import Napastak.Lib.Codec

/-! Append-only files of records, each under its four-byte length: what a reader that
goes from record to record finds, and where. -/
namespace Napastak.Framing
open Codec

/-- One record with its length in front. -/
def framed (data : List UInt8) : List UInt8 := leBytes 4 (data.length % 2 ^ 32) ++ data

def frame (ps : List (List UInt8)) : List UInt8 := ps.flatMap framed

/-- Records until the file ends or the next one is not there in full. -/
def recordsGo : Nat → List UInt8 → List (List UInt8)
  | 0, _ => []
  | fuel + 1, file =>
    if file.length < 4 then []
    else
      let l := leValue (file.take 4)
      let rest := file.drop 4
      if rest.length < l then [] else rest.take l :: recordsGo fuel (rest.drop l)

def records (file : List UInt8) : List (List UInt8) := recordsGo file.length file

/-- Lengths that the four bytes can hold. -/
def Framable (ps : List (List UInt8)) : Prop := ∀ p ∈ ps, p.length < 2 ^ 32

/-- What a write that stopped early leaves behind the last whole record. -/
def Torn (tail : List UInt8) : Prop := tail.length < 4 ∨ tail.length - 4 < leValue (tail.take 4)

theorem frameAppend (ps qs : List (List UInt8)) : frame (ps ++ qs) = frame ps ++ frame qs := List.flatMap_append ..

theorem framedLength (p : List UInt8) : (framed p).length = 4 + p.length := by simp [framed]

theorem recordsStep {p rest : List UInt8} {fuel : Nat} (small : p.length < 2 ^ 32) :
    recordsGo (fuel + 1) (framed p ++ rest) = p :: recordsGo fuel rest := by
  have header : (framed p ++ rest).take 4 = leBytes 4 p.length := by
    rw [framed,Nat.mod_eq_of_lt small,List.append_assoc]
    exact List.take_left' (leBytesLength 4 _)
  have body : (framed p ++ rest).drop 4 = p ++ rest := by
    rw [framed,List.append_assoc]
    exact List.drop_left' (leBytesLength 4 _)
  have long : ¬ (framed p ++ rest).length < 4 := by rw [List.length_append,framedLength]; omega
  rw [recordsGo,if_neg long,header,body,leValueBytes (by simpa using small)]
  simp

theorem recordsTorn {tail : List UInt8} (torn : Torn tail) (fuel : Nat) : recordsGo fuel tail = [] := by
  cases fuel with
  | zero => rfl
  | succ fuel =>
    rw [recordsGo]
    split
    · rfl
    · rename_i long
      rcases torn with short | cut
      · exact absurd short long
      · simp only [List.length_drop,if_pos cut]

theorem recordsGoFrame {ps : List (List UInt8)} {tail : List UInt8} (small : Framable ps) (torn : Torn tail) {fuel : Nat}
    (enough : ps.length ≤ fuel) : recordsGo fuel (frame ps ++ tail) = ps := by
  induction ps generalizing fuel with
  | nil => exact recordsTorn torn fuel
  | cons p ps ih =>
    cases fuel with
    | zero => simp at enough
    | succ fuel =>
      rw [show frame (p :: ps) = framed p ++ frame ps from List.flatMap_cons ..,List.append_assoc,
        recordsStep (small p List.mem_cons_self),
        ih (fun q hq => small q (List.mem_cons_of_mem _ hq)) (Nat.le_of_succ_le_succ enough)]

theorem frameLength (ps : List (List UInt8)) : ps.length ≤ (frame ps).length := by
  induction ps with
  | nil => simp
  | cons p ps ih =>
    rw [show frame (p :: ps) = framed p ++ frame ps from List.flatMap_cons ..,List.length_append,framedLength,
      List.length_cons]
    omega

/-- A file of whole records reads back as those records, whatever a torn write left after them. -/
theorem recordsFrameTorn {ps : List (List UInt8)} {tail : List UInt8} (small : Framable ps) (torn : Torn tail) :
    records (frame ps ++ tail) = ps :=
  recordsGoFrame small torn (by rw [List.length_append]; exact Nat.le_trans (frameLength ps) (Nat.le_add_right _ _))

theorem recordsFrame {ps : List (List UInt8)} (small : Framable ps) : records (frame ps) = ps := by
  have := @recordsFrameTorn ps [] small (.inl (by decide))
  rwa [List.append_nil] at this

/-- The records with the position each starts at. -/
def placed : Nat → List (List UInt8) → List (Nat × List UInt8)
  | _, [] => []
  | o, p :: ps => (o,p) :: placed (o + 4 + p.length) ps

theorem placedAppend (o : Nat) (ps qs : List (List UInt8)) :
    placed o (ps ++ qs) = placed o ps ++ placed (o + (frame ps).length) qs := by
  induction ps generalizing o with
  | nil => simp [placed,frame]
  | cons p ps ih =>
    rw [show frame (p :: ps) = framed p ++ frame ps from List.flatMap_cons ..,List.length_append,framedLength]
    simp only [List.cons_append,placed,ih,List.cons.injEq,true_and]
    congr 2
    omega

theorem placedRecords (o : Nat) (ps : List (List UInt8)) : (placed o ps).map Prod.snd = ps := by
  induction ps generalizing o with
  | nil => rfl
  | cons p ps ih => simp [placed,ih]

theorem placedBounds {o : Nat} {ps : List (List UInt8)} {r : Nat × List UInt8} (h : r ∈ placed o ps) :
    o ≤ r.1 ∧ r.1 < o + (frame ps).length := by
  induction ps generalizing o with
  | nil => simp [placed] at h
  | cons p ps ih =>
    rw [show frame (p :: ps) = framed p ++ frame ps from List.flatMap_cons ..,List.length_append,framedLength]
    rcases List.mem_cons.mp h with rfl | h
    · exact ⟨Nat.le_refl _,by simp only; omega⟩
    · have := ih h
      omega

/-- Two records do not start at one place. -/
theorem placedOnce {o : Nat} {ps : List (List UInt8)} : (placed o ps).Pairwise fun r s => r.1 < s.1 := by
  induction ps generalizing o with
  | nil => exact .nil
  | cons p ps ih => exact .cons (fun r hr => by have := (placedBounds hr).1; simp only; omega) ih

end Napastak.Framing
