import Napastak.SplitRfc
import Mathlib.Data.List.TakeWhile

/-! Lines of joined cells, plain and quoted, split back into the cells. -/
namespace Napastak.Store

/-- Neither a delimiter nor a quote nor a line end: what stands for itself in a line. -/
def Bare (f : Bytes) : Prop := ∀ c ∈ f, c ≠ comma ∧ c ≠ quote ∧ c ≠ lf ∧ c ≠ cr

instance (f : Bytes) : Decidable (Bare f) := List.decidableBAll _ f

theorem joinSnoc (fs : List Bytes) (f : Bytes) (some_ : fs ≠ []) :
    joinCells (fs ++ [f]) = joinCells fs ++ comma :: f := by
  induction fs with
  | nil => exact absurd rfl some_
  | cons a fs ih =>
    cases fs with
    | nil => rfl
    | cons b fs =>
      have := ih (by simp)
      simp only [List.cons_append,joinCells] at this ⊢
      rw [this]
      simp

theorem joinMem {fs : List Bytes} {c : UInt8} (h : c ∈ joinCells fs) : c = comma ∨ ∃ f ∈ fs, c ∈ f :=
  joinedMem (joinComma fs ▸ h)

theorem memJoin {fs : List Bytes} {f : Bytes} (hf : f ∈ fs) {c : UInt8} (hc : c ∈ f) : c ∈ joinCells fs := by
  induction fs with
  | nil => simp at hf
  | cons a fs ih =>
    cases fs with
    | nil => rw [List.mem_singleton] at hf; exact hf ▸ hc
    | cons b fs =>
      rcases List.mem_cons.mp hf with rfl | hf
      · exact List.mem_append_left _ hc
      · exact List.mem_append_right _ (List.mem_cons_of_mem _ (ih hf))

/-! ### The plain splitter -/

theorem splitLast (left : Nat) {f : Bytes} (h : ∀ c ∈ f, c ≠ comma) : splitSimpleGo comma left f = [f] := by
  induction f generalizing left with
  | nil => rfl
  | cons c cs ih =>
    cases left with
    | zero => rfl
    | succ left => simp [splitSimpleGo,h c List.mem_cons_self,ih _ fun d hd => h d (List.mem_cons_of_mem _ hd)]

theorem splitNext (left : Nat) {f : Bytes} (h : ∀ c ∈ f, c ≠ comma) (rest : Bytes) :
    splitSimpleGo comma (left + 1) (f ++ comma :: rest) = f :: splitSimpleGo comma left rest := by
  induction f with
  | nil => simp [splitSimpleGo]
  | cons c cs ih =>
    simp [splitSimpleGo,h c List.mem_cons_self,ih fun d hd => h d (List.mem_cons_of_mem _ hd)]

theorem splitJoin {fs : List Bytes} (some_ : fs ≠ []) (h : ∀ f ∈ fs, ∀ c ∈ f, c ≠ comma) {left : Nat}
    (room : fs.length ≤ left + 1) : splitSimpleGo comma left (joinCells fs) = fs := by
  induction fs generalizing left with
  | nil => exact absurd rfl some_
  | cons a fs ih =>
    cases fs with
    | nil => exact splitLast left (h a (by simp))
    | cons b fs =>
      cases left with
      | zero => simp at room
      | succ left =>
        rw [joinCells,splitNext left (h a (by simp)),
          ih (by simp) (fun f hf => h f (List.mem_cons_of_mem _ hf)) (by simpa using room)]

theorem walSplitPlain {line : Bytes} (h : line.head? ≠ some 4) (maxCols : Nat) :
    walSplitRow line maxCols = (splitLineSimple line maxCols).map fun f => if f = nullText then nullSentinel else f := by
  unfold walSplitRow
  split
  · simp at h
  · rfl

/-! ### The strict splitter -/

/-- How a cell may be written in an escaped line. -/
inductive Written : Bytes → Bytes × Bool → Prop
  | bare {v : Bytes} (h : Bare v) : Written v (v,false)
  | quoted (v : Bytes) : Written (quoted v) (v,true)

theorem quotedNoNul {v : Bytes} (h : (0 : UInt8) ∉ v) : (0 : UInt8) ∉ quoted v := by
  simp only [quoted,List.cons_append,List.mem_cons,List.mem_append,List.mem_flatMap,List.not_mem_nil,or_false,not_or]
  refine ⟨by decide,?_,by decide⟩
  rintro ⟨c,hc,h0⟩
  split at h0
  · simp [quote] at h0
  · rw [List.mem_singleton] at h0; exact h (h0 ▸ hc)

theorem writtenComma {enc : Bytes} {p : Bytes × Bool} (w : Written enc p) : WrittenOf comma enc p := by
  cases w with
  | bare h => exact .bare h
  | quoted v => exact .quoted v

theorem splitRfcJoin {encs : List Bytes} {ps : List (Bytes × Bool)} (w : List.Forall₂ Written encs ps) (some_ : encs ≠ [])
    {fuel : Nat} (enough : encs.length ≤ fuel) : splitRfcGo comma fuel (joinCells encs) = some ps := by
  rw [joinComma,← List.append_nil (joinWith comma encs)]
  exact splitRfcJoined (by decide) (w.imp fun _ _ => writtenComma) some_ enough (.inl rfl)

theorem joinLength (fs : List Bytes) : fs.length ≤ (joinCells fs).length + 1 := joinComma fs ▸ joinedLength fs

/-! ### Ends of lines -/

theorem trimLine {line : Bytes} (h : ∀ c, line.getLast? = some c → c ≠ lf ∧ c ≠ cr) : trimEnd (line ++ [lf]) = line := by
  simp only [trimEnd,List.reverse_append,List.reverse_singleton,List.singleton_append]
  rw [List.dropWhile_cons,if_pos (by simp)]
  cases hr : line.reverse with
  | nil => simpa using hr
  | cons c cs =>
    have last : line.getLast? = some c := by rw [← List.head?_reverse,hr]; rfl
    have keep := h c last
    rw [List.dropWhile_cons,if_neg (by simpa using keep),← hr,List.reverse_reverse]

theorem joinLast {p : UInt8 → Prop} (delim : p comma) {fs : List Bytes} (h : ∀ f ∈ fs, ∀ c, f.getLast? = some c → p c) :
    ∀ c, (joinCells fs).getLast? = some c → p c := by
  induction fs with
  | nil => simp [joinCells]
  | cons a fs ih =>
    cases fs with
    | nil => exact h a (by simp)
    | cons b fs =>
      intro c hc
      simp only [joinCells,List.getLast?_append,List.getLast?_cons,Option.some_or,Option.some.injEq] at hc
      cases hj : (joinCells (b :: fs)).getLast? with
      | none => rw [hj] at hc; exact hc ▸ delim
      | some d => rw [hj] at hc; exact hc ▸ ih (fun f hf => h f (List.mem_cons_of_mem _ hf)) d hj

theorem writtenLast {enc : Bytes} {p : Bytes × Bool} (w : Written enc p) : ∀ c, enc.getLast? = some c → c ≠ lf ∧ c ≠ cr := by
  intro c hc
  cases w with
  | bare h => exact ⟨(h c (List.mem_of_getLast? hc)).2.2.1,(h c (List.mem_of_getLast? hc)).2.2.2⟩
  | quoted v =>
    rw [quoted,List.getLast?_append] at hc
    cases hc
    decide

theorem rangeGet {ncols : Nat} {cells : List Bytes} (h : cells.length = ncols) :
    (List.range ncols).map (fun i => cells.getD i []) = cells := by
  subst h
  apply List.ext_getElem
  · simp
  · intro i h1 h2
    simp [List.getD_eq_getElem?_getD,List.getElem?_eq_getElem h2]

end Napastak.Store
