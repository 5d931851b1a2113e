import Napastak.ExprShape

/-! Where the words of an expression may stand. -/
namespace Napastak.SqlParser
open Query Sql

/-! ### Where words may stand -/

/-- What the words before have left to come. -/
inductive Place
  | operand | named | dotted | opened | chosen | starred | operator | tested | denied | negated | member | listed
  deriving DecidableEq

/-- The parentheses that are open, and whether a comma may stand in them. -/
abbrev Opens := List Bool

def close : Opens → Option (Place × Opens)
  | [] => none
  | _ :: K => some (.operator,K)

def atOperand (ty : TkType) (K : Opens) : Option (Place × Opens) :=
  match ty with
  | .numInt | .numFloat | .string | .null | .true_ | .false_ => some (.operator,K)
  | .ident => some (.named,K)
  | .lparen => some (.operand,false :: K)
  | .minus | .not_ => some (.operand,K)
  | _ => none

def binOps : List BinOp := [.or_,.and_,.eq,.ne,.lt,.le,.gt,.ge,.like,.ilike,.concat,.add,.sub,.mul,.div,.mod]

def atOperator (ty : TkType) (K : Opens) : Option (Place × Opens) :=
  if ty ∈ binOps.map (·.sym.type) then some (.operand,K)
  else match ty with
    | .between => some (.operand,K)
    | .is_ => some (.tested,K)
    | .not_ => some (.negated,K)
    | .in_ => some (.member,K)
    | .comma => if K.head? = some true then some (.operand,K) else none
    | .rparen => close K
    | _ => none

/-- What a word makes of a place. -/
def Place.next (p : Place) (ty : TkType) (K : Opens) : Option (Place × Opens) :=
  match p with
  | .operand => atOperand ty K
  | .operator => atOperator ty K
  | .named => if ty = .dot then some (.dotted,K) else if ty = .lparen then some (.opened,true :: K) else atOperator ty K
  | .dotted => if ty = .ident then some (.operator,K) else none
  | .opened => if ty = .distinct then some (.chosen,K) else if ty = .star then some (.starred,K) else
      if ty = .rparen then close K else atOperand ty K
  | .chosen => if ty = .star then some (.starred,K) else if ty = .rparen then close K else atOperand ty K
  | .starred => if ty = .rparen then close K else none
  | .tested => if ty = .null then some (.operator,K) else if ty = .not_ then some (.denied,K) else none
  | .denied => if ty = .null then some (.operator,K) else none
  | .negated => if ty = .like ∨ ty = .ilike ∨ ty = .between then some (.operand,K) else if ty = .in_ then some (.member,K) else none
  | .member => if ty = .lparen then some (.listed,true :: K) else none
  | .listed => if ty = .rparen then close K else atOperand ty K

/-- Words that may stand from a place on to the end. -/
def Valid (p : Place) (K : Opens) : List TkType → Prop
  | [] => (p = .operator ∨ p = .named) ∧ K = []
  | ty :: T => match p.next ty K with
    | some (q,K') => Valid q K' T
    | none => False

variable {p q : Place} {K K' : Opens} {ty : TkType} {T : List TkType}

theorem Valid.step (h : Valid p K (ty :: T)) : ∃ q K', p.next ty K = some (q,K') ∧ Valid q K' T := by
  rw [Valid] at h
  split at h
  · exact ⟨_,_,‹_›,h⟩
  · exact h.elim

theorem Valid.cons (next : p.next ty K = some (q,K')) (h : Valid q K' T) : Valid p K (ty :: T) := by
  rw [Valid,next]
  exact h

theorem Valid.into (h : Valid p K (ty :: T)) (next : p.next ty K = some (q,K')) : Valid q K' T := by
  rwa [Valid,next] at h

/-- A place that takes what another one takes. -/
theorem Valid.widen (h : Valid p K T) (end_ : T ≠ []) (wide : ∀ ty, (p.next ty K).isSome → q.next ty K = p.next ty K) : Valid q K T := by
  cases T with
  | nil => exact absurd rfl end_
  | cons ty T =>
    obtain ⟨r,K',next,rest⟩ := h.step
    exact .cons ((wide ty (by rw [next]; rfl)).trans next) rest

theorem atOperandCases {r : Place × Opens} (h : atOperand ty K = some r) :
    (ty ∈ [TkType.numInt,.numFloat,.string,.null,.true_,.false_] ∧ r = (.operator,K)) ∨ (ty = .ident ∧ r = (.named,K)) ∨
      (ty = .lparen ∧ r = (.operand,false :: K)) ∨ (ty ∈ [TkType.minus,.not_] ∧ r = (.operand,K)) := by
  unfold atOperand at h
  split at h
  case h_11 => cases h
  all_goals cases h; simp

theorem atOperatorCases {r : Place × Opens} (h : atOperator ty K = some r) :
    (∃ op : BinOp, ty = op.sym.type ∧ r = (.operand,K)) ∨ (ty = .between ∧ r = (.operand,K)) ∨ (ty = .is_ ∧ r = (.tested,K)) ∨
      (ty = .not_ ∧ r = (.negated,K)) ∨ (ty = .in_ ∧ r = (.member,K)) ∨ (ty = .comma ∧ K.head? = some true ∧ r = (.operand,K)) ∨
      (ty = .rparen ∧ close K = some r) := by
  unfold atOperator at h
  split at h
  · rename_i is
    obtain ⟨op,_,rfl⟩ := List.mem_map.mp is
    cases h
    exact .inl ⟨op,rfl,rfl⟩
  · split at h
    case h_5 =>
      split at h
      · cases h
        simp [*]
      · cases h
    case h_6 => simp [h]
    case h_7 => cases h
    all_goals cases h; simp

/-! ### The words of a tree -/

theorem opNext (op : BinOp) : Place.operator.next op.sym.type K = some (.operand,K) := by cases op <;> rfl

theorem namedNext (h : (Place.operator.next ty K).isSome) : Place.named.next ty K = Place.operator.next ty K := by
  have dot : ty ≠ .dot := by
    rintro rfl
    cases h
  have lparen : ty ≠ .lparen := by
    rintro rfl
    cases h
  exact (if_neg dot).trans (if_neg lparen)

theorem Valid.named (h : Valid .operator K T) : Valid .named K T := by
  cases T with
  | nil => exact ⟨.inr rfl,h.2⟩
  | cons ty T => exact h.widen (List.cons_ne_nil _ _) fun ty => namedNext

/-- Where a list may be, its first operand may stand. -/
theorem operandNext (list : p = .chosen ∨ p = .listed) (h : (Place.operand.next ty K).isSome) : p.next ty K = Place.operand.next ty K := by
  have star : ty ≠ .star := by
    rintro rfl
    cases h
  have rparen : ty ≠ .rparen := by
    rintro rfl
    cases h
  rcases list with rfl | rfl
  · exact (if_neg star).trans (if_neg rparen)
  · exact if_neg rparen

theorem chosenNext (h : (Place.chosen.next ty K).isSome) : Place.opened.next ty K = Place.chosen.next ty K := by
  have distinct : ty ≠ .distinct := by
    rintro rfl
    cases h
  exact if_neg distinct

theorem Valid.nonempty (h : Valid .operand K T) : T ≠ [] := by
  rintro rfl
  rcases h.1 with is | is <;> cases is

namespace Tree

theorem notsValid (negated : Bool) {ty : TkType} (here : Place.operator.next ty K = some (q,K'))
    (behind : Place.negated.next ty K = some (q,K')) (h : Valid q K' T) : Valid .operator K (nots negated ++ ty :: T) := by
  cases negated with
  | false => exact .cons here h
  | true => exact .cons rfl (.cons behind h)

theorem placedValid (k : Nat) {t : Tree} (h : ∀ K T, Valid .operator K T → Valid .operand K (types t.words ++ T)) (K : Opens) (T : List TkType)
    (rest : Valid .operator K T) : Valid .operand K (types (placed k t t.words) ++ T) := by
  rw [placed]
  split
  · rw [typesWrap,List.cons_append,List.append_assoc]
    exact .cons rfl (h _ _ (.cons rfl rest))
  · exact h _ _ rest

theorem openValid (list : p = .chosen ∨ p = .listed) {ts : List Tree} (h : Valid .operator K T)
    (some_ : ts = [] ∨ Valid .operand (true :: K) (types (listWords ts) ++ .rparen :: T)) :
    Valid p (true :: K) (types (listWords ts) ++ .rparen :: T) := by
  rcases some_ with rfl | some_
  · rcases list with rfl | rfl <;> exact .cons rfl h
  · exact some_.widen some_.nonempty fun _ => operandNext list

mutual
theorem wordsValid : (t : Tree) → ∀ (K : Opens) (T : List TkType), Valid .operator K T → Valid .operand K (types t.words ++ T)
  | col none _,_,_,h => .cons rfl h.named
  | col (some _) _,_,_,h => .cons rfl (.cons rfl (.cons rfl h))
  | int _,_,_,h | float _,_,_,h | str _,_,_,h | null,_,_,h => .cons rfl h
  | bool b,_,_,h => by cases b <;> exact .cons rfl h
  | call name distinct args,K,T,h => by
    rw [words,typesCons,typesCons,typesAppend,typesAppend,typesDistinct,List.cons_append,List.cons_append,List.append_assoc,List.append_assoc]
    have args := openValid (.inl rfl) h (listValid args K T h)
    refine .cons rfl (.cons rfl ?_)
    cases distinct
    · exact args.widen (by simp) fun _ => chosenNext
    · exact .cons rfl args
  | callStar name distinct,K,T,h => by
    rw [words,typesCons,typesCons,typesAppend,typesDistinct]
    cases distinct
    · exact .cons rfl (.cons rfl (.cons rfl (.cons rfl h)))
    · exact .cons rfl (.cons rfl (.cons rfl (.cons rfl (.cons rfl h))))
  | bin op l r,K,T,h => by
    rw [words,typesAppend,typesCons,List.append_assoc]
    exact placedValid _ (wordsValid l) _ _ (.cons (opNext op) (placedValid _ (wordsValid r) _ _ h))
  | not_ t,K,T,h => .cons rfl (placedValid _ (wordsValid t) _ _ h)
  | neg t,K,T,h => .cons rfl (placedValid _ (wordsValid t) _ _ h)
  | isNull negated t,K,T,h => by
    rw [words,typesAppend,typesCons,typesAppend,typesNot,List.append_assoc]
    refine placedValid _ (wordsValid t) _ _ (.cons rfl ?_)
    cases negated
    · exact .cons rfl h
    · exact .cons rfl (.cons rfl h)
  | notLike anyCase l r,K,T,h => by
    rw [words,typesAppend,typesCons,typesCons,List.append_assoc]
    refine placedValid _ (wordsValid l) _ _ (.cons rfl ?_)
    cases anyCase
    · exact .cons rfl (placedValid _ (wordsValid r) _ _ h)
    · exact .cons rfl (placedValid _ (wordsValid r) _ _ h)
  | between negated t low high,K,T,h => by
    rw [words,typesAppend,typesAppend,typesNot,typesCons,typesAppend,typesCons,List.append_assoc,List.append_assoc,List.cons_append,
      List.append_assoc]
    refine placedValid _ (wordsValid t) _ _ (notsValid negated rfl rfl ?_)
    exact placedValid _ (wordsValid low) _ _ (.cons rfl (placedValid _ (wordsValid high) _ _ h))
  | inList negated t items,K,T,h => by
    rw [words,typesAppend,typesAppend,typesNot,typesCons,typesCons,typesAppend,List.append_assoc,List.append_assoc,List.cons_append,
      List.cons_append,List.append_assoc]
    refine placedValid _ (wordsValid t) _ _ (notsValid negated rfl rfl (.cons rfl ?_))
    exact openValid (.inr rfl) h (listValid items K T h)

theorem listValid : (ts : List Tree) → ∀ (K : Opens) (T : List TkType), Valid .operator K T →
    ts = [] ∨ Valid .operand (true :: K) (types (listWords ts) ++ .rparen :: T)
  | [],_,_,_ => .inl rfl
  | [t],K,T,h => by
    rw [listWords,List.isEmpty_nil,if_pos rfl,List.append_nil]
    exact .inr (wordsValid t _ _ (.cons rfl h))
  | t :: v :: ts,K,T,h => by
    rw [listWords,List.isEmpty_cons,if_neg Bool.false_ne_true,typesAppend,typesCons,List.append_assoc]
    exact .inr (wordsValid t _ _ (.cons rfl ((listValid (v :: ts) K T h).resolve_left (List.cons_ne_nil _ _))))
end

end Tree

end Napastak.SqlParser
