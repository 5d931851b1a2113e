import Napastak.ExprInv

/-! An error that the expression parser has set stays. -/
namespace Napastak.SqlParser
open Query Sql

/-! ### Tame tokens -/

/-- The words that open what no tree has. -/
def foreign : List TkType := [.case_,.exists_,.cast_,.select,.with_,.over_]

section
variable {F α β : Type}

def Tame (R : List (Token F)) : Prop := ∀ t ∈ R, t.type ∉ foreign

/-- On tame tokens: what is known of the value, and that an error stays. -/
def Sticks (f : Parse F α) (p : α → Prop) : Prop :=
  ∀ l a l', Tame l.toks → f l = some (a,l') → p a ∧ Tame l'.toks ∧ (l'.error = none → l.error = none)

variable {p : α → Prop} {q : β → Prop}

theorem sticksNone : Sticks (fun _ => none : Parse F α) p := fun _ _ _ _ run => nomatch run

theorem sticksPure {a : α} (is : p a) : Sticks (pure a : Parse F α) p := by
  intro l b l' tame run
  cases run
  exact ⟨is,tame,id⟩

theorem sticksBind {f : Parse F α} {g : α → Parse F β} (first : Sticks f p) (next : ∀ a, p a → Sticks (g a) q) : Sticks (f >>= g) q := by
  intro l b l' tame run
  obtain ⟨⟨a,l1⟩,step,rest⟩ := Option.bind_eq_some_iff.mp run
  obtain ⟨is,still,back⟩ := first l a l1 tame step
  obtain ⟨is',still',back'⟩ := next a is l1 b l' still rest
  exact ⟨is',still',back ∘ back'⟩

theorem sticksMap {f : Parse F α} (g : α → β) (h : Sticks f fun _ => True) : Sticks (g <$> f) fun _ => True := by
  intro l b l' tame run
  obtain ⟨⟨a,l1⟩,step,rest⟩ := Option.bind_eq_some_iff.mp run
  cases rest
  exact h l a _ tame step

/-- A run without an error goes through states without one. -/
theorem Sticks.split {f : Parse F α} {g : α → Parse F β} (first : Sticks f p) (next : ∀ a, p a → Sticks (g a) q) {R R' : List (Token F)}
    {er : Option String} {b : β} (tame : Tame R) (run : (f >>= g) ⟨R,er⟩ = some (b,⟨R',none⟩)) :
    ∃ a S, Tame S ∧ f ⟨R,er⟩ = some (a,⟨S,none⟩) ∧ g a ⟨S,none⟩ = some (b,⟨R',none⟩) := by
  obtain ⟨⟨a,S,er1⟩,step,rest⟩ := Option.bind_eq_some_iff.mp run
  obtain ⟨is,still,_⟩ := first _ a _ tame step
  cases (next a is _ b _ still rest).2.2 rfl
  exact ⟨a,S,still,step,rest⟩

theorem tailTame {R : List (Token F)} (tame : Tame R) : Tame R.tail := fun t m => tame t (List.mem_of_mem_tail m)

theorem errorSticks (msg : String) : Sticks (lexSetError msg : Parse F Unit) fun _ => True := by
  intro l a l' tame run
  cases run
  exact ⟨trivial,tame,fun is => (Option.or_eq_none_iff.mp is).1⟩

variable [JsonDoubles F]

theorem headTame {R : List (Token F)} (tame : Tame R) : (R.head?.getD eof).type ∉ foreign := by
  cases R with
  | nil => exact (by decide : TkType.eof ∉ foreign)
  | cons t R => exact tame t List.mem_cons_self

theorem peekSticks : Sticks (lexPeek : Parse F (Token F)) fun t => t.type ∉ foreign := by
  intro l a l' tame run
  cases run
  exact ⟨headTame tame,tame,id⟩

theorem consumeSticks : Sticks (lexConsume : Parse F (Token F)) fun _ => True := by
  intro l a l' tame run
  cases run
  exact ⟨trivial,tailTame tame,id⟩

theorem eatSticks (ty : TkType) : Sticks (lexEat ty : Parse F Bool) fun b => ty ∈ foreign → b = false := by
  intro l a l' tame run
  rw [lexEat] at run
  split at run
  · rename_i is
    cases run
    exact ⟨fun m => absurd (is ▸ m) (headTame tame),tailTame tame,id⟩
  · cases run
    exact ⟨fun _ => rfl,tame,id⟩

theorem peekIsSticks (ty : TkType) : Sticks (lexPeekIs ty : Parse F Bool) fun _ => True := by
  intro l a l' tame run
  cases run
  exact ⟨trivial,tame,id⟩

theorem querySticks : Sticks (peekQuery : Parse F Bool) (· = false) := by
  refine sticksBind peekSticks fun t tame => sticksPure ?_
  have select : t.type ≠ .select := fun is => tame (by rw [is]; decide)
  have with_ : t.type ≠ .with_ := fun is => tame (by rw [is]; decide)
  rw [decide_eq_false select,decide_eq_false with_]
  rfl

/-- The parsers of expressions, all at one fuel. -/
structure Sticky (F : Type) [JsonDoubles F] (n : Nat) : Prop where
  prim : Sticks (parsePrimary n : Parse F (Expr F)) fun _ => True
  call : ∀ name, Sticks (parseCall n name : Parse F (Expr F)) fun _ => True
  args : Sticks (parseArgs n : Parse F (List (Expr F))) fun _ => True
  list : Sticks (parseList n : Parse F (List (Expr F))) fun _ => True
  expr : ∀ m, Sticks (parseExpr n m : Parse F (Expr F)) fun _ => True
  loop : ∀ m e, Sticks (exprLoop n m e : Parse F (Expr F)) fun _ => True
  range : Sticks (parseRange n : Parse F (Expr F)) fun _ => True
  items : Sticks (parseItems n : Parse F (Expr F)) fun _ => True

variable {n : Nat} (h : Sticky F n)

theorem closeSticks {a : α} (ty : TkType) : Sticks (do let _ ← lexEat ty; return a : Parse F α) fun _ => True :=
  sticksBind (eatSticks ty) fun _ _ => sticksPure trivial

/-- The rest of a list behind one of its expressions. -/
theorem moreSticks {more : Parse F (List (Expr F))} (sticks : Sticks more fun _ => True) (e : Expr F) :
    Sticks (do
      if ← lexEat .comma then return e :: (← more)
      return [e] : Parse F (List (Expr F))) fun _ => True := by
  refine sticksBind (eatSticks _) fun b _ => ?_
  split
  · exact sticksBind sticks fun _ _ => sticksPure trivial
  · exact sticksPure trivial

/-- The end of a call. -/
theorem endSticks (n : Nat) (name : Bytes) (args : List (Expr F)) (distinct : Bool) : Sticks (do
    let _ ← lexEat .rparen
    if ← lexEat .over_ then return .window name args distinct (← parseWindowSpec n)
    return .func name args distinct : Parse F (Expr F)) fun _ => True := by
  refine sticksBind (eatSticks _) fun _ _ => sticksBind (eatSticks _) fun b is => ?_
  cases is (by decide)
  exact sticksPure trivial

include h

theorem primSticks : Sticks (parsePrimary (n + 1) : Parse F (Expr F)) fun _ => True := by
  simp only [parsePrimary]
  refine sticksBind peekSticks fun t tame => sticksBind consumeSticks fun _ _ => ?_
  split
  case h_1 | h_2 | h_3 =>
    rename_i is
    exact absurd (by rw [is]; decide) tame
  case h_4 | h_5 | h_6 | h_7 | h_8 | h_9 | h_10 => exact sticksPure trivial
  case h_11 | h_12 => exact sticksBind h.prim fun _ _ => sticksPure trivial
  case h_13 =>
    refine sticksBind querySticks fun b is => ?_
    cases is
    exact sticksBind (h.expr 0) fun _ _ => closeSticks _
  case h_14 =>
    refine sticksBind (eatSticks _) fun b _ => ?_
    split
    · exact h.call _
    · refine sticksBind (eatSticks _) fun b _ => ?_
      split
      · exact sticksBind consumeSticks fun _ _ => sticksPure trivial
      · exact sticksPure trivial
  case h_15 => exact sticksBind (errorSticks _) fun _ _ => sticksPure trivial

theorem callSticks (name : Bytes) : Sticks (parseCall (n + 1) name : Parse F (Expr F)) fun _ => True := by
  simp only [parseCall]
  refine sticksBind (eatSticks _) fun distinct _ => sticksBind (eatSticks _) fun b _ => ?_
  split
  · exact sticksBind (p := fun _ => True) (sticksPure trivial) fun args _ => endSticks n name args distinct
  · refine sticksBind (peekIsSticks _) fun b _ => ?_
    split
    · exact sticksBind (p := fun _ => True) (sticksPure trivial) fun args _ => endSticks n name args distinct
    · exact sticksBind h.args fun args _ => endSticks n name args distinct

theorem argsSticks : Sticks (parseArgs (n + 1) : Parse F (List (Expr F))) fun _ => True := by
  simp only [parseArgs]
  refine sticksBind (peekIsSticks _) fun b _ => ?_
  split
  · exact sticksPure trivial
  · exact sticksBind (h.expr 0) fun e _ => moreSticks h.args e

theorem listSticks : Sticks (parseList (n + 1) : Parse F (List (Expr F))) fun _ => True := by
  simp only [parseList]
  exact sticksBind (h.expr 0) fun e _ => moreSticks h.list e

theorem exprSticks (m : Int) : Sticks (parseExpr (n + 1) m : Parse F (Expr F)) fun _ => True := by
  simp only [parseExpr]
  exact sticksBind h.prim fun e _ => h.loop m e

theorem loopSticks (m : Int) (e : Expr F) : Sticks (exprLoop (n + 1) m e : Parse F (Expr F)) fun _ => True := by
  simp only [exprLoop]
  refine sticksBind peekSticks fun t _ => ?_
  split
  case h_1 =>
    exact sticksBind consumeSticks fun _ _ => sticksBind (eatSticks _) fun _ _ => sticksBind (eatSticks _) fun _ _ => h.loop m _
  case h_2 =>
    refine sticksBind consumeSticks fun _ _ => sticksBind peekSticks fun u _ => ?_
    split
    case h_1 | h_2 => exact sticksBind consumeSticks fun _ _ => sticksBind (h.expr 5) fun _ _ => h.loop m _
    case h_3 => exact sticksBind consumeSticks fun _ _ => sticksBind h.range fun _ _ => h.loop m _
    case h_4 => exact sticksBind consumeSticks fun _ _ => sticksBind h.items fun _ _ => h.loop m _
    case h_5 => exact sticksBind h.prim fun _ _ => h.loop m _
  case h_3 => exact sticksBind consumeSticks fun _ _ => sticksBind h.range fun _ _ => h.loop m _
  case h_4 => exact sticksBind consumeSticks fun _ _ => sticksBind h.items fun _ _ => h.loop m _
  case h_5 =>
    split
    · exact sticksPure trivial
    · exact sticksBind consumeSticks fun _ _ => sticksBind (h.expr _) fun _ _ => h.loop m _

theorem rangeSticks : Sticks (parseRange (n + 1) : Parse F (Expr F)) fun _ => True := by
  simp only [parseRange]
  exact sticksBind (h.expr 6) fun _ _ => sticksBind (eatSticks _) fun _ _ => sticksBind (h.expr 6) fun _ _ => sticksPure trivial

theorem itemsSticks : Sticks (parseItems (n + 1) : Parse F (Expr F)) fun _ => True := by
  simp only [parseItems]
  refine sticksBind (eatSticks _) fun _ _ => sticksBind querySticks fun b is => ?_
  cases is
  refine sticksBind (peekIsSticks _) fun b _ => ?_
  split
  · exact sticksBind (p := fun _ => True) (sticksPure trivial) fun _ _ => closeSticks _
  · exact sticksBind (sticksMap _ h.list) fun _ _ => closeSticks _

end

theorem sticky (F : Type) [JsonDoubles F] (n : Nat) : Sticky F n := by
  induction n with
  | zero =>
    constructor <;> intros <;> exact sticksNone
  | succ n ih =>
    exact ⟨primSticks ih,callSticks ih,argsSticks ih,listSticks ih,exprSticks ih,loopSticks ih,rangeSticks ih,itemsSticks ih⟩

end Napastak.SqlParser
