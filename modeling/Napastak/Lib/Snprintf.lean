import Napastak.Lib.Growth

/-! Buffers that `snprintf` fills piece by piece. -/
namespace Napastak.Snprintf
open Growth (grown grownFits)

/-- The string in the buffer, and the sum of the lengths that were to be written. -/
structure Filled where
  kept : List UInt8
  off : Nat
  deriving DecidableEq, Repr

/-- `off += snprintf(buf + off, cap - off, ...)`: `none` where the size left has wrapped around, or the length is no `int`. -/
def Filled.add (cap : Nat) (f : Filled) (s : List UInt8) : Option Filled :=
  if cap < f.off ∨ 2 ^ 31 ≤ s.length then none else some ⟨f.kept ++ s.take (cap - f.off - 1),f.off + s.length⟩

def fill (cap : Nat) (pieces : List (List UInt8)) : Option Filled := pieces.foldlM (Filled.add cap) ⟨[],0⟩

/-- Of the text `t` there is what fits before the zero. -/
structure Holds (cap : Nat) (t : List UInt8) (f : Filled) : Prop where
  kept : f.kept = t.take (cap - 1)
  off : f.off = t.length

variable {cap : Nat} {t s : List UInt8} {f : Filled}

theorem addHolds (holds : Holds cap t f) (fits : t.length ≤ cap) (short : s.length < 2 ^ 31) :
    ∃ f', f.add cap s = some f' ∧ Holds cap (t ++ s) f' := by
  obtain ⟨kept,off⟩ := holds
  refine ⟨_,if_neg (by omega),?_,?_⟩
  · rw [kept,off,List.take_append,Nat.sub_right_comm]
  · rw [off,List.length_append]

theorem addPast (holds : Holds cap t f) (past : cap < t.length ∨ 2 ^ 31 ≤ s.length) : f.add cap s = none :=
  if_pos (by rwa [holds.off])

/-- What the pieces need: all but the last in the buffer. -/
def Room (cap : Nat) (pieces : List (List UInt8)) : Prop :=
  pieces.dropLast.flatten.length ≤ cap ∧ ∀ p ∈ pieces, p.length < 2 ^ 31

theorem foldIs {pieces : List (List UInt8)} (holds : Holds cap t f) :
    ((pieces ≠ [] → (t ++ pieces.dropLast.flatten).length ≤ cap) ∧ (∀ p ∈ pieces, p.length < 2 ^ 31) →
      ∃ f', pieces.foldlM (Filled.add cap) f = some f' ∧ Holds cap (t ++ pieces.flatten) f') ∧
    (¬((pieces ≠ [] → (t ++ pieces.dropLast.flatten).length ≤ cap) ∧ ∀ p ∈ pieces, p.length < 2 ^ 31) →
      pieces.foldlM (Filled.add cap) f = none) := by
  induction pieces generalizing t f with
  | nil => exact ⟨fun _ => ⟨f,rfl,by rwa [List.flatten_nil,List.append_nil]⟩,fun no => absurd ⟨fun ne => absurd rfl ne,nofun⟩ no⟩
  | cons p ps ih =>
    rw [List.foldlM_cons]
    by_cases here : t.length ≤ cap ∧ p.length < 2 ^ 31
    · obtain ⟨f',add,holds'⟩ := addHolds holds here.1 here.2
      obtain ⟨fits,past⟩ := ih holds'
      rw [add,Option.bind_eq_bind,Option.bind_some,List.flatten_cons,← List.append_assoc]
      have same : (ps ≠ [] → (t ++ p ++ ps.dropLast.flatten).length ≤ cap) ↔
          (p :: ps ≠ [] → (t ++ (p :: ps).dropLast.flatten).length ≤ cap) := by
        cases ps with
        | nil => simpa using here.1
        | cons q qs => rw [List.dropLast_cons_of_ne_nil (List.cons_ne_nil q qs),List.flatten_cons,List.append_assoc]; simp
      have each : (∀ q ∈ p :: ps, q.length < 2 ^ 31) ↔ ∀ q ∈ ps, q.length < 2 ^ 31 :=
        List.forall_mem_cons.trans (and_iff_right here.2)
      rw [← same,each]
      exact ⟨fits,past⟩
    · have none_ : f.add cap p = none := addPast holds (by omega)
      rw [none_,Option.bind_eq_bind,Option.bind_none]
      refine ⟨fun good => absurd ⟨?_,good.2 p List.mem_cons_self⟩ here,fun _ => rfl⟩
      have := good.1 (List.cons_ne_nil p ps)
      rw [List.length_append] at this
      omega

/-- Every piece but the last must end in the buffer; what is behind it of the last is cut off. -/
theorem fillIs (pieces : List (List UInt8)) :
    (Room cap pieces → fill cap pieces = some ⟨pieces.flatten.take (cap - 1),pieces.flatten.length⟩) ∧
    (¬Room cap pieces → fill cap pieces = none) := by
  have same : Room cap pieces ↔
      (pieces ≠ [] → ([] ++ pieces.dropLast.flatten : List UInt8).length ≤ cap) ∧ ∀ p ∈ pieces, p.length < 2 ^ 31 := by
    rw [Room,List.nil_append]
    refine and_congr_left fun _ => ⟨fun le _ => le,fun all => ?_⟩
    cases pieces with
    | nil => exact Nat.zero_le cap
    | cons p ps => exact all (List.cons_ne_nil p ps)
  obtain ⟨fits,past⟩ := @foldIs cap [] ⟨[],0⟩ pieces ⟨List.take_nil.symm,rfl⟩
  rw [same,fill]
  refine ⟨fun good => ?_,past⟩
  obtain ⟨⟨kept,off⟩,is,holds⟩ := fits good
  rw [is,show kept = _ from holds.kept,show off = _ from holds.off,List.nil_append]

/-- Where there was room for the zero as well, the whole text is there. -/
theorem takenWhole {t : List UInt8} (pos : 0 < cap) : t.take (cap - 1) = t ↔ t.length < cap := by
  refine ⟨fun same => ?_,fun less => List.take_of_length_le (by omega)⟩
  have := congrArg List.length same
  rw [List.length_take] at this
  omega

/-! ### A buffer that grows -/

/-- A piece for which the capacity is doubled until it and the zero fit. -/
def append (b : Nat × Filled) (s : List UInt8) : Option (Nat × Filled) :=
  if 2 ^ 31 ≤ s.length then none
  else (b.2.add (grown b.1 (b.2.off + s.length + 1)) s).map (grown b.1 (b.2.off + s.length + 1),·)

/-- A grown buffer takes pieces of any number. -/
theorem appendAll {pieces : List (List UInt8)} {b : Nat × Filled} (pos : 0 < b.1) (whole : b.2.off = b.2.kept.length) :
    ((∀ p ∈ pieces, p.length < 2 ^ 31) → ∃ b', pieces.foldlM append b = some b' ∧ b'.2.kept = b.2.kept ++ pieces.flatten) ∧
    (¬(∀ p ∈ pieces, p.length < 2 ^ 31) → pieces.foldlM append b = none) := by
  induction pieces generalizing b with
  | nil => exact ⟨fun _ => ⟨b,rfl,(List.append_nil _).symm⟩,fun no => absurd nofun no⟩
  | cons p ps ih =>
    rw [List.foldlM_cons]
    by_cases short : p.length < 2 ^ 31
    · have room := grownFits pos (b.2.off + p.length + 1)
      have add : b.2.add (grown b.1 (b.2.off + p.length + 1)) p = some ⟨b.2.kept ++ p,b.2.off + p.length⟩ := by
        rw [Filled.add,if_neg (by omega),List.take_of_length_le (by omega)]
      rw [append,if_neg (Nat.not_le.mpr short),add,Option.map_some,Option.bind_eq_bind,Option.bind_some]
      have next := @ih (grown b.1 (b.2.off + p.length + 1),⟨b.2.kept ++ p,b.2.off + p.length⟩) (by dsimp only; omega)
        (by rw [List.length_append,whole])
      have each : (∀ q ∈ p :: ps, q.length < 2 ^ 31) ↔ ∀ q ∈ ps, q.length < 2 ^ 31 :=
        List.forall_mem_cons.trans (and_iff_right short)
      rw [each,List.flatten_cons,← List.append_assoc]
      exact next
    · rw [append,if_pos (Nat.not_lt.mp short),Option.bind_eq_bind,Option.bind_none]
      exact ⟨fun all => absurd (all p List.mem_cons_self) short,fun _ => rfl⟩

end Napastak.Snprintf
