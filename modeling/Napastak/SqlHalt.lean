import Napastak.Lexeme
import Napastak.SqlParser

/-! `sql_parse` ends on every text: the scanner only goes forward, and each function of the parser gives back the tokens it
has not taken, after calls whose depth is linear in the tokens. -/
namespace Napastak.SqlParser
open Query Sql Munch

/-! ### The scanner -/

section
variable (F : Type) [Doubles F]

/-- `lex_next`: the next token, past blanks and comments, and what is left behind it. -/
def lexNext : Bytes → Token F × Bytes
  | [] => (eof,[])
  | c :: s =>
    match (lexStep F (c :: s)).1 with
    | t :: _ => (t,(lexStep F (c :: s)).2)
    | [] => lexNext (lexStep F (c :: s)).2
termination_by s => s.length
decreasing_by exact lexStepShorter c s

variable {F}

theorem stepOne (c : UInt8) (s : Bytes) : (lexStep F (c :: s)).1.length ≤ 1 := by
  rw [lexStep]
  repeat' split
  all_goals simp

theorem lexAllCons (c : UInt8) (s : Bytes) :
    lexAll F (c :: s) = (lexStep F (c :: s)).1 ++ lexAll F (lexStep F (c :: s)).2 := by
  rw [lexAll,scanStep lexStepShorter,List.flatten_cons]
  rfl

/-- The tokens of a text are what `lex_next` gives one after another. -/
theorem nextIs (s : Bytes) : (lexNext F s).1 = (lexAll F s).head?.getD eof ∧ lexAll F (lexNext F s).2 = (lexAll F s).tail := by
  induction h : s.length using Nat.strongRecOn generalizing s with
  | _ n ih =>
    cases s with
    | nil =>
      rw [lexNext]
      exact ⟨rfl,rfl⟩
    | cons c s =>
      have less := lexStepShorter (F := F) c s
      have one := stepOne (F := F) c s
      rw [lexNext,lexAllCons]
      cases given : (lexStep F (c :: s)).1 with
      | nil => exact ih _ (h ▸ less) _ rfl
      | cons t ts =>
        rw [given,List.length_cons] at one
        rw [List.eq_nil_of_length_eq_zero (show ts.length = 0 by omega)]
        exact ⟨rfl,rfl⟩

/-- `lex_next` moves forward over a text that is not at its end, and never past the end. -/
theorem nextForward (s : Bytes) : (lexNext F s).2 <:+ s ∧ (s ≠ [] → (lexNext F s).2.length < s.length) := by
  induction h : s.length using Nat.strongRecOn generalizing s with
  | _ n ih =>
    cases s with
    | nil =>
      rw [lexNext]
      exact ⟨List.suffix_rfl,fun ne => absurd rfl ne⟩
    | cons c s =>
      have less := lexStepShorter (F := F) c s
      have behind : (lexStep F (c :: s)).2 <:+ c :: s := by
        obtain ⟨x,_,split,_⟩ := lexStepSplit (F := F) c s
        exact ⟨x,split.symm⟩
      rw [lexNext]
      cases (lexStep F (c :: s)).1 with
      | nil =>
        have next := (ih _ (h ▸ less) _ rfl).1
        exact ⟨next.trans behind,fun _ => h ▸ Nat.lt_of_le_of_lt next.length_le less⟩
      | cons t ts => exact ⟨behind,fun _ => h ▸ less⟩

theorem tokensBehind {toks : List (Token F)} {s : Bytes} (left : toks <:+ lexAll F s) : ∃ r, r <:+ s ∧ toks = lexAll F r := by
  induction h : s.length using Nat.strongRecOn generalizing s with
  | _ n ih =>
    by_cases all : toks = lexAll F s
    · exact ⟨s,List.suffix_rfl,all⟩
    · have ne : s ≠ [] := by
        rintro rfl
        exact all (List.suffix_nil.mp left)
      have later : toks <:+ lexAll F (lexNext F s).2 := by
        rw [(nextIs s).2]
        cases toks_ : lexAll F s with
        | nil => exact absurd (List.suffix_nil.mp (toks_ ▸ left)) (toks_ ▸ all)
        | cons t ts =>
          rw [toks_] at left all
          exact (List.suffix_cons_iff.mp left).resolve_left all
      obtain ⟨r,behind,is⟩ := ih _ (h ▸ (nextForward s).2 ne) later rfl
      exact ⟨r,behind.trans (nextForward s).1,is⟩

end

/-! ### Runs that end -/

section
variable {F α β : Type}

/-- On at most `m` tokens, two runs that may differ in their fuel end alike, with what is left of the tokens. -/
def Settles (m : Nat) (f f' : Parse F α) (q : α → Nat → Prop) : Prop :=
  ∀ l, l.toks.length ≤ m → ∃ a l', f l = some (a,l') ∧ f' l = some (a,l') ∧ l'.toks <:+ l.toks ∧ q a l'.toks.length

def Any : α → Nat → Prop := fun _ _ => True

variable {m : Nat} {f f' : Parse F α} {g g' : α → Parse F β} {p : α → Nat → Prop} {q : β → Nat → Prop}

theorem settlesPure {b : β} (is : ∀ k ≤ m, q b k) : Settles m (pure b : Parse F β) (pure b) q :=
  fun l small => ⟨b,l,rfl,rfl,List.suffix_rfl,is _ small⟩

theorem settlesEnd {b : β} : Settles m (pure b : Parse F β) (pure b) Any := settlesPure fun _ _ => trivial

theorem settlesBind (first : Settles m f f' p) (next : ∀ a k, k ≤ m → p a k → Settles k (g a) (g' a) q) :
    Settles m (f >>= g) (f' >>= g') q := by
  intro l small
  obtain ⟨a,l1,run,run',left,is⟩ := first l small
  obtain ⟨b,l2,then_,then',left',is'⟩ := next a _ (Nat.le_trans left.length_le small) is l1 (Nat.le_refl _)
  exact ⟨b,l2,Option.bind_eq_some_iff.mpr ⟨_,run,then_⟩,Option.bind_eq_some_iff.mpr ⟨_,run',then'⟩,left'.trans left,is'⟩

theorem settlesMap (h : α → β) (first : Settles m f f' Any) : Settles m (h <$> f) (h <$> f') Any := by
  intro l small
  obtain ⟨a,l1,run,run',left,_⟩ := first l small
  exact ⟨h a,l1,Option.bind_eq_some_iff.mpr ⟨_,run,rfl⟩,Option.bind_eq_some_iff.mpr ⟨_,run',rfl⟩,left,trivial⟩

theorem settlesIte (c : Prop) [Decidable c] {e e' d d' : Parse F β} (yes : c → Settles m e e' q) (no : ¬c → Settles m d d' q) :
    Settles m (if c then e else d) (if c then e' else d') q := by
  split
  · exact yes ‹_›
  · exact no ‹_›

theorem skipSettles : Settles m (skipToParen : Parse F Unit) skipToParen Any :=
  fun _ _ => ⟨_,_,rfl,rfl,List.dropWhile_suffix _,trivial⟩

theorem pagingBehind (saw : Bool) (ts : List (Token F)) : skipPaging saw ts <:+ ts := by
  fun_induction skipPaging saw ts with
  | case1 => exact List.suffix_rfl
  | case2 saw t ts _ ih => exact ih.trans (List.suffix_cons t ts)
  | case3 saw t ts _ _ ih => exact ih.trans (List.suffix_cons t ts)
  | case4 => exact List.suffix_rfl

theorem pagingSettles : Settles m (parsePaging : Parse F Unit) parsePaging Any :=
  fun _ _ => ⟨_,_,rfl,rfl,pagingBehind _ _,trivial⟩

/-- From a state behind `l`, two runs end alike and still behind it. -/
def Returns (l : Lexer F) (f f' : Parse F α) : Prop :=
  ∀ s, s.toks <:+ l.toks → ∃ a l', f s = some (a,l') ∧ f' s = some (a,l') ∧ l'.toks <:+ l.toks

theorem returnsBind {l : Lexer F} {p : Nat → α → Nat → Prop} (first : ∀ m, Settles m f f (p m)) (next : ∀ a, Returns l (g a) (g' a)) :
    Returns l (f >>= g) (f >>= g') := by
  intro s behind
  obtain ⟨a,l1,run,run',left,_⟩ := first _ s (Nat.le_refl _)
  obtain ⟨b,l2,then_,then',left'⟩ := next a l1 (left.trans behind)
  exact ⟨b,l2,Option.bind_eq_some_iff.mpr ⟨_,run,then_⟩,Option.bind_eq_some_iff.mpr ⟨_,run',then'⟩,left'⟩

theorem returnsIte {l : Lexer F} (c : Prop) [Decidable c] {e e' d d' : Parse F β} (yes : c → Returns l e e') (no : ¬c → Returns l d d') :
    Returns l (if c then e else d) (if c then e' else d') := by
  split
  · exact yes ‹_›
  · exact no ‹_›

theorem returnsSettled {l : Lexer F} (ends : Settles m f f' Any) (small : l.toks.length ≤ m) : Returns l f f' := by
  intro s behind
  obtain ⟨a,l',run,run',left,_⟩ := ends s (Nat.le_trans behind.length_le small)
  exact ⟨a,l',run,run',left.trans behind⟩

/-- Whatever was read behind `l`, setting it back starts at `l`. -/
theorem returnsSet {l : Lexer F} (ends : Settles m f f' Any) (small : l.toks.length ≤ m) : Returns l (do set l; f) (do set l; f') := by
  intro s _
  obtain ⟨a,l',run,run',left,_⟩ := ends l small
  exact ⟨a,l',run,run',left⟩

theorem settlesSave {f f' : Lexer F → Parse F α} (back : ∀ l, l.toks.length ≤ m → Returns l (f l) (f' l)) :
    Settles m (get >>= f) (get >>= f') Any := by
  intro l small
  obtain ⟨a,l',run,run',left⟩ := back l small l List.suffix_rfl
  exact ⟨a,l',run,run',left,trivial⟩

theorem errorSettles (msg : String) : Settles m (lexSetError msg : Parse F Unit) (lexSetError msg) Any :=
  fun _ _ => ⟨_,_,rfl,rfl,List.suffix_rfl,trivial⟩

theorem getSettles : Settles m (get : Parse F (Lexer F)) get Any := fun l _ => ⟨l,l,rfl,rfl,List.suffix_rfl,trivial⟩

/-- A clause that may be missing, and what follows it. -/
theorem clauseSettles {b : Bool} {d : α} {e e' : Parse F β} {rest rest' : α → Parse F β}
    (after : ∀ x k, k ≤ m → Settles k (rest x) (rest' x) Any) (given : b = true → Settles m e e' Any) :
    Settles m (if b = true then e else pure d >>= rest) (if b = true then e' else pure d >>= rest') Any :=
  settlesIte _ given fun _ => settlesBind (p := Any) settlesEnd fun x k small _ => after x k small

variable [JsonDoubles F]

theorem peekSettles : Settles m (lexPeek : Parse F (Token F)) lexPeek fun t k => t.type ≠ .eof → 0 < k := by
  refine fun l _ => ⟨_,l,rfl,rfl,List.suffix_rfl,fun ne => List.length_pos_iff.mpr fun is => ne ?_⟩
  rw [is]
  rfl

theorem consumeSettles : Settles m (lexConsume : Parse F (Token F)) lexConsume fun _ k => k ≤ m - 1 := by
  refine fun l small => ⟨_,_,rfl,rfl,List.tail_suffix _,?_⟩
  rw [List.length_tail]
  omega

theorem peekIsSettles (ty : TkType) : Settles m (lexPeekIs ty : Parse F Bool) (lexPeekIs ty) Any :=
  fun l _ => ⟨_,l,rfl,rfl,List.suffix_rfl,trivial⟩

theorem eatSettles {ty : TkType} (ne : ty ≠ .eof) :
    Settles m (lexEat ty : Parse F Bool) (lexEat ty) fun b k => b = true → k < m := by
  intro l small
  by_cases is : (l.toks.head?.getD eof).type = ty
  · have some_ : 0 < l.toks.length := List.length_pos_iff.mpr fun nil => ne (by rw [← is,nil]; rfl)
    refine ⟨true,_,if_pos is,if_pos is,List.tail_suffix _,fun _ => ?_⟩
    rw [List.length_tail]
    omega
  · exact ⟨false,l,if_neg is,if_neg is,List.suffix_rfl,fun no => nomatch no⟩

theorem querySettles : Settles m (peekQuery : Parse F Bool) peekQuery Any :=
  settlesBind peekSettles fun _ _ _ _ => settlesEnd

theorem identSettles : Settles m (consumeIdent : Parse F Bytes) consumeIdent Any :=
  settlesBind consumeSettles fun _ _ _ _ => settlesEnd

theorem moreSettles {more more' : Parse F (List α)} {e : α} (again : ∀ k, k < m → Settles k more more' Any) :
    Settles m (do
      if ← lexEat .comma then return e :: (← more)
      return [e] : Parse F (List α)) (do
      if ← lexEat .comma then return e :: (← more')
      return [e]) Any := by
  refine settlesBind (eatSettles (by decide)) fun b k _ less => settlesIte _ (fun is => ?_) fun _ => settlesEnd
  exact settlesBind (again k (less is)) fun _ _ _ _ => settlesEnd

/-! ### The parts of a statement that need no fuel -/

theorem boundSettles : Settles m (parseFrameBound : Parse F WinFrameBound) parseFrameBound Any := by
  rw [parseFrameBound]
  refine settlesBind peekSettles fun t k _ _ => settlesIte _ (fun _ => ?_) fun _ => settlesIte _ (fun _ => ?_) fun _ => ?_
  · refine settlesBind consumeSettles fun _ _ _ _ => settlesBind (eatSettles (by decide)) fun _ _ _ _ => ?_
    refine settlesIte _ (fun _ => settlesEnd) fun _ => ?_
    exact settlesBind (eatSettles (by decide)) fun _ _ _ _ => settlesEnd
  · exact settlesBind consumeSettles fun _ _ _ _ => settlesBind (eatSettles (by decide)) fun _ _ _ _ => settlesEnd
  · refine settlesBind consumeSettles fun _ _ _ _ => settlesBind (eatSettles (by decide)) fun _ _ _ _ => ?_
    refine settlesIte _ (fun _ => settlesEnd) fun _ => ?_
    exact settlesBind (eatSettles (by decide)) fun _ _ _ _ => settlesEnd

theorem frameSettles : Settles m (parseFrame : Parse F (Option (WinFrameType × WinFrameBound × WinFrameBound))) parseFrame Any := by
  rw [parseFrame]
  refine settlesBind peekSettles fun t k _ _ => settlesIte _ (fun _ => ?_) fun _ => settlesEnd
  refine settlesBind consumeSettles fun _ _ _ _ => settlesBind (eatSettles (by decide)) fun _ _ _ _ => ?_
  refine settlesIte _ (fun _ => ?_) fun _ => ?_
  · refine settlesBind boundSettles fun _ _ _ _ => settlesBind (eatSettles (by decide)) fun _ _ _ _ => ?_
    exact settlesBind boundSettles fun _ _ _ _ => settlesEnd
  · exact settlesBind boundSettles fun _ _ _ _ => settlesEnd

theorem castSettles : Settles m (castType : Parse F Bytes) castType Any := by
  rw [castType]
  refine settlesBind peekSettles fun t k _ _ => settlesIte _ (fun _ => ?_) fun _ => settlesEnd
  exact settlesBind consumeSettles fun _ _ _ _ => settlesEnd

theorem aliasSettles : Settles m (aliasOf : Parse F (Option Bytes)) aliasOf Any := by
  rw [aliasOf]
  refine settlesBind (eatSettles (by decide)) fun _ _ _ _ => settlesIte _ (fun _ => ?_) fun _ => ?_
  · exact settlesBind identSettles fun _ _ _ _ => settlesEnd
  · refine settlesBind (peekIsSettles _) fun _ _ _ _ => settlesIte _ (fun _ => ?_) fun _ => settlesEnd
    exact settlesBind identSettles fun _ _ _ _ => settlesEnd

theorem countSettles {kw : TkType} (ne : kw ≠ .eof) (missing : Int64) :
    Settles m (parseCount kw missing : Parse F Int64) (parseCount kw missing) Any := by
  rw [parseCount]
  refine settlesBind (eatSettles ne) fun _ _ _ _ => settlesIte _ (fun _ => ?_) fun _ => settlesEnd
  exact settlesBind consumeSettles fun _ _ _ _ => settlesEnd

theorem setsSettles (room : Nat) : Settles m (parseSets room : Parse F (Except String (List (Bytes × Bytes)))) (parseSets room) Any := by
  induction room generalizing m with
  | zero => exact settlesEnd
  | succ room ih =>
    rw [parseSets]
    refine settlesBind consumeSettles fun col _ _ _ => settlesIte _ (fun _ => settlesEnd) fun _ => ?_
    refine settlesBind (eatSettles (by decide)) fun b _ _ _ => settlesIte _ (fun _ => settlesEnd) fun _ => ?_
    refine settlesBind (eatSettles (by decide)) fun neg _ _ _ => settlesBind consumeSettles fun val _ _ _ => ?_
    refine settlesBind (eatSettles (by decide)) fun b _ _ _ => settlesIte _ (fun _ => ?_) fun _ => settlesEnd
    exact settlesBind ih fun _ _ _ _ => settlesEnd

theorem joinSettles : Settles m (joinKind : Parse F (Option JoinType)) joinKind Any := by
  have outer (jt : JoinType) (k : Nat) : Settles k (do
      let _ ← lexConsume
      let _ ← lexEat .outer_
      return some jt : Parse F (Option JoinType)) (do
      let _ ← lexConsume
      let _ ← lexEat .outer_
      return some jt) Any :=
    settlesBind consumeSettles fun _ _ _ _ => settlesBind (eatSettles (by decide)) fun _ _ _ _ => settlesEnd
  rw [joinKind]
  refine settlesBind peekSettles fun t k _ _ => ?_
  split
  case h_1 | h_2 | h_3 => exact outer _ k
  case h_4 | h_5 => exact settlesBind consumeSettles fun _ _ _ _ => settlesEnd
  case h_6 | h_7 => exact settlesEnd

theorem setOpSettles : Settles m (setOpAhead : Parse F (Option SetOpType)) setOpAhead fun op k => op.isSome → k < m := by
  have none_ {op : SetOpType} {b : Bool} {j k : Nat} (less : b = true → k < j) (small : j ≤ m) (is : b = true) :
      Settles k (pure (some op) : Parse F (Option SetOpType)) (pure (some op)) fun op k => op.isSome → k < m :=
    settlesPure fun i _ _ => by have := less is; omega
  rw [setOpAhead]
  refine settlesBind (eatSettles (by decide)) fun b k small less => settlesIte _ (fun is => ?_) fun _ => ?_
  · refine settlesBind (eatSettles (by decide)) fun c j _ _ => ?_
    have := less is
    exact settlesIte _ (fun _ => settlesPure fun _ _ _ => by omega) fun _ => settlesPure fun _ _ _ => by omega
  · refine settlesBind (eatSettles (by decide)) fun b j below less => settlesIte _ (none_ less small) fun _ => ?_
    refine settlesBind (eatSettles (by decide)) fun b i _ less => settlesIte _ (none_ less (by omega)) fun _ => ?_
    exact settlesPure fun _ _ is => nomatch is

end

/-- The functions of the parser at two fuels, both enough for `m` tokens. -/
structure Halting (F : Type) [JsonDoubles F] (n n' : Nat) : Prop where
  prim : ∀ m, 5 * m + 1 ≤ n → Settles m (parsePrimary n : Parse F (Expr F)) (parsePrimary n') Any
  arms : ∀ m, 5 * m + 1 ≤ n → Settles m (parseArms n : Parse F (List (Expr F × Expr F))) (parseArms n') Any
  call : ∀ name m, 5 * m + 4 ≤ n → Settles m (parseCall n name : Parse F (Expr F)) (parseCall n' name) Any
  args : ∀ m, 5 * m + 3 ≤ n → Settles m (parseArgs n : Parse F (List (Expr F))) (parseArgs n') Any
  list : ∀ m, 5 * m + 3 ≤ n → Settles m (parseList n : Parse F (List (Expr F))) (parseList n') Any
  order : ∀ nulls m, 5 * m + 3 ≤ n → Settles m (parseOrder n nulls : Parse F (List (OrderItem F))) (parseOrder n' nulls) Any
  window : ∀ m, 5 * m + 1 ≤ n → Settles m (parseWindowSpec n : Parse F (WindowSpec F)) (parseWindowSpec n') Any
  expr : ∀ p m, 5 * m + 2 ≤ n → Settles m (parseExpr n p : Parse F (Expr F)) (parseExpr n' p) Any
  loop : ∀ p e m, 5 * m + 1 ≤ n → Settles m (exprLoop n p e : Parse F (Expr F)) (exprLoop n' p e) Any
  range : ∀ m, 5 * m + 3 ≤ n → Settles m (parseRange n : Parse F (Expr F)) (parseRange n') Any
  items : ∀ m, 5 * m + 4 ≤ n → Settles m (parseItems n : Parse F (Expr F)) (parseItems n') Any
  selectExpr : ∀ m, 5 * m + 3 ≤ n → Settles m (parseSelectExpr n : Parse F (Expr F)) (parseSelectExpr n') Any
  selectList : ∀ m, 5 * m + 4 ≤ n → Settles m (parseSelectList n : Parse F (List (Expr F))) (parseSelectList n') Any
  derived : ∀ m, 5 * m + 2 ≤ n → Settles m (parseDerived n : Parse F (Option (Stmt F))) (parseDerived n') Any
  from_ : ∀ m, 5 * m + 1 ≤ n → Settles m (parseFrom n : Parse F (List (FromItem F))) (parseFrom n') Any
  joins : ∀ m, 5 * m + 1 ≤ n → Settles m (parseJoins n : Parse F (List (FromItem F))) (parseJoins n') Any
  select : ∀ m, 5 * m + 5 ≤ n → Settles m (parseSelect n : Parse F (SelectStmt F)) (parseSelect n') Any
  ctes : ∀ m, 5 * m + 2 ≤ n → Settles m (parseCtes n : Parse F (List (CTE F))) (parseCtes n') Any
  with_ : ∀ m, 5 * m + 3 ≤ n → Settles m (parseWith n : Parse F (Stmt F)) (parseWith n') Any
  update : ∀ m, 5 * m + 1 ≤ n → Settles m (parseUpdate n : Parse F (Stmt F)) (parseUpdate n') Any
  delete : ∀ m, 5 * m + 1 ≤ n → Settles m (parseDelete n : Parse F (Stmt F)) (parseDelete n') Any
  stmt : ∀ m, 5 * m + 1 ≤ n → Settles m (parseStmt n : Parse F (Stmt F)) (parseStmt n') Any
  setOps : ∀ s m, 5 * m + 1 ≤ n → Settles m (parseSetOps n s : Parse F (Stmt F)) (parseSetOps n' s) Any

/-! ### One level of calls -/

section
variable {F : Type} [JsonDoubles F] {m n n' : Nat} (h : Halting F n n')
include h

theorem primSettles (enough : 5 * m + 1 ≤ n + 1) :
    Settles m (parsePrimary (n + 1) : Parse F (Expr F)) (parsePrimary (n' + 1)) Any := by
  rw [parsePrimary,parsePrimary]
  refine settlesBind peekSettles fun t k small some_ => settlesBind consumeSettles fun _ j _ less => ?_
  split
  case h_15 => exact settlesBind (errorSettles _) fun _ _ _ _ => settlesEnd
  case h_4 | h_5 | h_6 | h_7 | h_8 | h_9 | h_10 => exact settlesEnd
  -- what calls another function has taken a token
  all_goals
    rename_i is
    have taken := some_ (by rw [is]; decide)
  case h_1 =>
    refine settlesBind (peekIsSettles _) fun b i _ _ => ?_
    extract_lets arms arms'
    have afterOp (caseOp : Option (Expr F)) (k : Nat) (small : k ≤ j) : Settles k (arms caseOp) (arms' caseOp) Any := by
      refine settlesBind (h.arms k (by omega)) fun _ _ _ _ => settlesBind (eatSettles (by decide)) fun b k1 _ _ => ?_
      extract_lets stop
      refine clauseSettles (fun _ _ _ => settlesBind (eatSettles (by decide)) fun _ _ _ _ => settlesEnd) fun _ => ?_
      refine settlesBind (settlesMap some (h.expr 0 k1 (by omega))) fun _ _ _ _ => ?_
      exact settlesBind (eatSettles (by decide)) fun _ _ _ _ => settlesEnd
    refine settlesIte _ (fun _ => settlesBind (p := Any) settlesEnd fun _ _ _ _ => afterOp _ _ (by omega)) fun _ => ?_
    exact settlesBind (settlesMap some (h.expr 0 i (by omega))) fun _ _ _ _ => afterOp _ _ (by omega)
  case h_2 =>
    refine settlesBind (eatSettles (by decide)) fun _ i _ _ => settlesBind (h.stmt i (by omega)) fun _ _ _ _ => ?_
    exact settlesBind (eatSettles (by decide)) fun _ _ _ _ => settlesEnd
  case h_3 =>
    refine settlesBind (eatSettles (by decide)) fun _ i _ _ => settlesBind (h.expr 0 i (by omega)) fun _ _ _ _ => ?_
    refine settlesBind (eatSettles (by decide)) fun _ _ _ _ => settlesBind castSettles fun _ _ _ _ => ?_
    exact settlesBind (eatSettles (by decide)) fun _ _ _ _ => settlesEnd
  case h_11 | h_12 => exact settlesBind (h.prim j (by omega)) fun _ _ _ _ => settlesEnd
  case h_13 =>
    refine settlesBind querySettles fun b i _ _ => settlesIte _ (fun _ => ?_) fun _ => ?_
    · exact settlesBind (h.stmt i (by omega)) fun _ _ _ _ => settlesBind (eatSettles (by decide)) fun _ _ _ _ => settlesEnd
    · exact settlesBind (h.expr 0 i (by omega)) fun _ _ _ _ => settlesBind (eatSettles (by decide)) fun _ _ _ _ => settlesEnd
  case h_14 =>
    refine settlesBind (eatSettles (by decide)) fun b i _ _ => settlesIte _ (fun _ => h.call _ i (by omega)) fun _ => ?_
    refine settlesBind (eatSettles (by decide)) fun b _ _ _ => settlesIte _ (fun _ => ?_) fun _ => settlesEnd
    exact settlesBind consumeSettles fun _ _ _ _ => settlesEnd

theorem armsSettles (enough : 5 * m + 1 ≤ n + 1) :
    Settles m (parseArms (n + 1) : Parse F (List (Expr F × Expr F))) (parseArms (n' + 1)) Any := by
  rw [parseArms,parseArms]
  refine settlesBind (eatSettles (by decide)) fun b k _ less => settlesIte _ (fun is => ?_) fun _ => settlesEnd
  have := less is
  refine settlesBind (h.expr 0 k (by omega)) fun cond k1 _ _ => settlesBind (eatSettles (by decide)) fun _ k2 _ _ => ?_
  refine settlesBind (h.expr 0 k2 (by omega)) fun value k3 _ _ => settlesBind (h.arms k3 (by omega)) fun _ _ _ _ => settlesEnd

theorem callSettles (name : Bytes) (enough : 5 * m + 4 ≤ n + 1) :
    Settles m (parseCall (n + 1) name : Parse F (Expr F)) (parseCall (n' + 1) name) Any := by
  rw [parseCall,parseCall]
  refine settlesBind (eatSettles (by decide)) fun distinct k _ _ => settlesBind (eatSettles (by decide)) fun b k1 _ _ => ?_
  extract_lets close close'
  have afterArgs (args : List (Expr F)) (j : Nat) (small : j ≤ m) : Settles j (close args) (close' args) Any := by
    refine settlesBind (eatSettles (by decide)) fun _ j1 _ _ => settlesBind (eatSettles (by decide)) fun b j2 _ less => ?_
    refine settlesIte _ (fun is => ?_) fun _ => settlesEnd
    have := less is
    exact settlesBind (h.window j2 (by omega)) fun _ _ _ _ => settlesEnd
  refine settlesIte _ (fun _ => settlesBind (p := Any) settlesEnd fun _ _ _ _ => afterArgs _ _ (by omega)) fun _ => ?_
  refine settlesBind (peekIsSettles _) fun _ k2 _ _ => settlesIte _ (fun _ => ?_) fun _ => ?_
  · exact settlesBind (p := Any) settlesEnd fun _ _ _ _ => afterArgs _ _ (by omega)
  · exact settlesBind (h.args k2 (by omega)) fun _ _ _ _ => afterArgs _ _ (by omega)

theorem argsSettles (enough : 5 * m + 3 ≤ n + 1) :
    Settles m (parseArgs (n + 1) : Parse F (List (Expr F))) (parseArgs (n' + 1)) Any := by
  rw [parseArgs,parseArgs]
  refine settlesBind (peekIsSettles _) fun b k _ _ => settlesIte _ (fun _ => settlesEnd) fun _ => ?_
  exact settlesBind (h.expr 0 k (by omega)) fun _ k1 _ _ => moreSettles fun k2 _ => h.args k2 (by omega)

theorem listSettles (enough : 5 * m + 3 ≤ n + 1) :
    Settles m (parseList (n + 1) : Parse F (List (Expr F))) (parseList (n' + 1)) Any := by
  rw [parseList,parseList]
  exact settlesBind (h.expr 0 m (by omega)) fun _ k1 _ _ => moreSettles fun k2 _ => h.list k2 (by omega)

theorem orderSettles (nulls : Bool) (enough : 5 * m + 3 ≤ n + 1) :
    Settles m (parseOrder (n + 1) nulls : Parse F (List (OrderItem F))) (parseOrder (n' + 1) nulls) Any := by
  rw [parseOrder,parseOrder]
  refine settlesBind (h.expr 0 m (by omega)) fun e k _ _ => settlesBind (eatSettles (by decide)) fun desc k1 _ _ => ?_
  extract_lets _ nullsPart _ nullsPart'
  have more (nullsLast : Bool) (j : Nat) (small : j ≤ m) : Settles j _ _ Any :=
    settlesBind (p := Any) (settlesEnd (b := nullsLast)) fun nullsLast _ _ _ => moreSettles (e := OrderItem.mk e desc nullsLast) fun i _ =>
      h.order nulls i (by omega)
  have afterDesc (j : Nat) (small : j ≤ m) : Settles j (nullsPart ()) (nullsPart' ()) Any := by
    refine settlesIte _ (fun _ => ?_) fun _ => more _ _ small
    refine settlesBind (eatSettles (by decide)) fun b j1 _ _ => settlesIte _ (fun _ => ?_) fun _ => more _ _ (by omega)
    refine settlesBind (eatSettles (by decide)) fun b j2 _ _ => settlesIte _ (fun _ => more _ _ (by omega)) fun _ => ?_
    exact settlesBind (eatSettles (by decide)) fun _ _ _ _ => more _ _ (by omega)
  refine settlesIte _ (fun _ => ?_) fun _ => afterDesc _ (by omega)
  exact settlesBind (eatSettles (by decide)) fun _ _ _ _ => afterDesc _ (by omega)

theorem windowSettles (enough : 5 * m + 1 ≤ n + 1) :
    Settles m (parseWindowSpec (n + 1) : Parse F (WindowSpec F)) (parseWindowSpec (n' + 1)) Any := by
  rw [parseWindowSpec,parseWindowSpec]
  refine settlesBind (eatSettles (by decide)) fun _ k _ _ => settlesBind (eatSettles (by decide)) fun b k1 _ less => ?_
  extract_lets order order'
  have afterPartition (partitionBy : List (Expr F)) (j : Nat) (small : j ≤ m) : Settles j (order partitionBy) (order' partitionBy) Any := by
    refine settlesBind (eatSettles (by decide)) fun b j1 _ less => ?_
    extract_lets frame
    have afterOrder (orderBy : List (OrderItem F)) (i : Nat) : Settles i (frame orderBy) (frame orderBy) Any :=
      settlesBind frameSettles fun _ _ _ _ => settlesBind (eatSettles (by decide)) fun _ _ _ _ => settlesEnd
    refine clauseSettles (fun _ _ _ => afterOrder _ _) fun is => ?_
    have := less is
    refine settlesBind (eatSettles (by decide)) fun _ j2 _ _ => settlesBind (h.order false j2 (by omega)) fun _ _ _ _ => ?_
    exact afterOrder _ _
  refine clauseSettles (fun _ _ _ => afterPartition _ _ (by omega)) fun is => ?_
  have := less is
  refine settlesBind (eatSettles (by decide)) fun _ k2 _ _ => settlesBind (h.list k2 (by omega)) fun _ _ _ _ => ?_
  exact afterPartition _ _ (by omega)

theorem exprSettles (p : Int) (enough : 5 * m + 2 ≤ n + 1) :
    Settles m (parseExpr (n + 1) p : Parse F (Expr F)) (parseExpr (n' + 1) p) Any := by
  rw [parseExpr,parseExpr]
  exact settlesBind (h.prim m (by omega)) fun e k _ _ => h.loop p e k (by omega)

theorem loopSettles (p : Int) (e : Expr F) (enough : 5 * m + 1 ≤ n + 1) :
    Settles m (exprLoop (n + 1) p e : Parse F (Expr F)) (exprLoop (n' + 1) p e) Any := by
  rw [exprLoop,exprLoop]
  refine settlesBind peekSettles fun t k small some_ => ?_
  split
  case h_1 =>
    rename_i is
    have := some_ (by rw [is]; decide)
    refine settlesBind consumeSettles fun _ k1 _ less => settlesBind (eatSettles (by decide)) fun _ k2 _ _ => ?_
    exact settlesBind (eatSettles (by decide)) fun _ k3 _ _ => h.loop p _ k3 (by omega)
  case h_2 =>
    rename_i is
    have := some_ (by rw [is]; decide)
    refine settlesBind consumeSettles fun _ k1 _ less => settlesBind peekSettles fun u k2 _ _ => ?_
    split
    case h_1 | h_2 =>
      refine settlesBind consumeSettles fun _ k3 _ _ => settlesBind (h.expr 5 k3 (by omega)) fun _ k4 _ _ => ?_
      exact h.loop p _ k4 (by omega)
    case h_3 =>
      refine settlesBind consumeSettles fun _ k3 _ _ => settlesBind (h.range k3 (by omega)) fun _ k4 _ _ => ?_
      exact h.loop p _ k4 (by omega)
    case h_4 =>
      refine settlesBind consumeSettles fun _ k3 _ _ => settlesBind (h.items k3 (by omega)) fun _ k4 _ _ => ?_
      exact h.loop p _ k4 (by omega)
    case h_5 => exact settlesBind (h.prim k2 (by omega)) fun _ k3 _ _ => h.loop p _ k3 (by omega)
  case h_3 =>
    rename_i is
    have := some_ (by rw [is]; decide)
    refine settlesBind consumeSettles fun _ k1 _ less => settlesBind (h.range k1 (by omega)) fun _ k2 _ _ => ?_
    exact h.loop p _ k2 (by omega)
  case h_4 =>
    rename_i is
    have := some_ (by rw [is]; decide)
    refine settlesBind consumeSettles fun _ k1 _ less => settlesBind (h.items k1 (by omega)) fun _ k2 _ _ => ?_
    exact h.loop p _ k2 (by omega)
  case h_5 =>
    -- the end of the text is no operator
    refine settlesIte _ (fun _ => settlesEnd) fun operator => ?_
    have := some_ fun is => operator (.inl (by rw [is]; decide))
    refine settlesBind consumeSettles fun _ k1 _ less => settlesBind (h.expr _ k1 (by omega)) fun _ k2 _ _ => ?_
    exact h.loop p _ k2 (by omega)

theorem rangeSettles (enough : 5 * m + 3 ≤ n + 1) :
    Settles m (parseRange (n + 1) : Parse F (Expr F)) (parseRange (n' + 1)) Any := by
  rw [parseRange,parseRange]
  refine settlesBind (h.expr 6 m (by omega)) fun _ k _ _ => settlesBind (eatSettles (by decide)) fun _ k1 _ _ => ?_
  exact settlesBind (h.expr 6 k1 (by omega)) fun _ _ _ _ => settlesEnd

theorem itemsSettles (enough : 5 * m + 4 ≤ n + 1) :
    Settles m (parseItems (n + 1) : Parse F (Expr F)) (parseItems (n' + 1)) Any := by
  rw [parseItems,parseItems]
  refine settlesBind (eatSettles (by decide)) fun _ k _ _ => settlesBind querySettles fun b k1 _ _ => ?_
  extract_lets close
  have afterItems (e : Expr F) (j : Nat) : Settles j (close e) (close e) Any :=
    settlesBind (eatSettles (by decide)) fun _ _ _ _ => settlesEnd
  refine settlesIte _ (fun _ => ?_) fun _ => ?_
  · exact settlesBind (settlesMap _ (h.stmt k1 (by omega))) fun _ _ _ _ => afterItems _ _
  · refine settlesBind (peekIsSettles _) fun _ k2 _ _ => settlesIte _ (fun _ => ?_) fun _ => ?_
    · exact settlesBind (p := Any) settlesEnd fun _ _ _ _ => afterItems _ _
    · exact settlesBind (settlesMap _ (h.list k2 (by omega))) fun _ _ _ _ => afterItems _ _

theorem selectListSettles (enough : 5 * m + 4 ≤ n + 1) :
    Settles m (parseSelectList (n + 1) : Parse F (List (Expr F))) (parseSelectList (n' + 1)) Any := by
  rw [parseSelectList,parseSelectList]
  exact settlesBind (h.selectExpr m (by omega)) fun _ k1 _ _ => moreSettles fun k2 _ => h.selectList k2 (by omega)

theorem derivedSettles (enough : 5 * m + 2 ≤ n + 1) :
    Settles m (parseDerived (n + 1) : Parse F (Option (Stmt F))) (parseDerived (n' + 1)) Any := by
  rw [parseDerived,parseDerived]
  refine settlesBind querySettles fun _ k _ _ => settlesIte _ (fun _ => settlesMap _ (h.stmt k (by omega))) fun _ => ?_
  exact settlesBind skipSettles fun _ _ _ _ => settlesEnd

theorem fromSettles (enough : 5 * m + 1 ≤ n + 1) :
    Settles m (parseFrom (n + 1) : Parse F (List (FromItem F))) (parseFrom (n' + 1)) Any := by
  rw [parseFrom,parseFrom]
  refine settlesBind (eatSettles (by decide)) fun b k _ less => ?_
  extract_lets close named close' named'
  have afterItem (item : Option Bytes × Option (Stmt F)) (j : Nat) (small : j ≤ m) : Settles j (close item) (close' item) Any :=
    settlesBind aliasSettles fun _ j1 _ _ => moreSettles fun j2 _ => h.from_ j2 (by omega)
  refine settlesIte _ (fun is => ?_) fun _ => ?_
  · have := less is
    refine settlesBind (h.derived k (by omega)) fun sub k1 _ _ => settlesBind (eatSettles (by decide)) fun c k2 _ _ => ?_
    extract_lets last last'
    have ends (j : Nat) (small : j ≤ m) : Settles j (last ()) (last' ()) Any :=
      settlesBind (p := Any) settlesEnd fun _ _ _ _ => afterItem _ _ (by omega)
    refine settlesIte _ (fun _ => ?_) fun _ => ends _ (by omega)
    exact settlesBind (errorSettles _) fun _ _ _ _ => ends _ (by omega)
  · have ends (j : Nat) (small : j ≤ m) : Settles j (named ()) (named' ()) Any :=
      settlesBind identSettles fun _ _ _ _ => settlesBind (p := Any) settlesEnd fun _ _ _ _ => afterItem _ _ (by omega)
    refine settlesBind (peekIsSettles _) fun c k1 _ _ => settlesIte _ (fun _ => ?_) fun _ => ends _ (by omega)
    exact settlesBind (errorSettles _) fun _ _ _ _ => ends _ (by omega)

theorem updateSettles (enough : 5 * m + 1 ≤ n + 1) :
    Settles m (parseUpdate (n + 1) : Parse F (Stmt F)) (parseUpdate (n' + 1)) Any := by
  rw [parseUpdate,parseUpdate]
  refine settlesBind consumeSettles fun tbl k _ _ => settlesIte _ (fun _ => settlesEnd) fun _ => ?_
  refine settlesBind (eatSettles (by decide)) fun b k1 _ _ => settlesIte _ (fun _ => settlesEnd) fun _ => ?_
  refine settlesBind (setsSettles 64) fun sets k2 _ _ => ?_
  cases sets with
  | error msg => exact settlesEnd
  | ok sets =>
    refine settlesBind (eatSettles (by decide)) fun b k3 _ less => ?_
    extract_lets close
    refine clauseSettles (fun _ _ _ => settlesEnd) fun is => ?_
    have := less is
    exact settlesBind (settlesMap some (h.expr 0 k3 (by omega))) fun _ _ _ _ => settlesEnd

theorem deleteSettles (enough : 5 * m + 1 ≤ n + 1) :
    Settles m (parseDelete (n + 1) : Parse F (Stmt F)) (parseDelete (n' + 1)) Any := by
  rw [parseDelete,parseDelete]
  refine settlesBind (eatSettles (by decide)) fun _ k _ _ => settlesBind consumeSettles fun tbl k1 _ _ => ?_
  refine settlesIte _ (fun _ => settlesEnd) fun _ => ?_
  refine settlesBind (eatSettles (by decide)) fun b k2 _ less => ?_
  extract_lets close
  refine clauseSettles (fun _ _ _ => settlesEnd) fun is => ?_
  have := less is
  exact settlesBind (settlesMap some (h.expr 0 k2 (by omega))) fun _ _ _ _ => settlesEnd

theorem stmtSettles (enough : 5 * m + 1 ≤ n + 1) :
    Settles m (parseStmt (n + 1) : Parse F (Stmt F)) (parseStmt (n' + 1)) Any := by
  rw [parseStmt,parseStmt]
  refine settlesBind (eatSettles (by decide)) fun _ k _ _ => ?_
  refine settlesBind (eatSettles (by decide)) fun b k1 _ less => settlesIte _ (fun is => ?_) fun _ => ?_
  · have := less is
    exact h.with_ k1 (by omega)
  refine settlesBind (eatSettles (by decide)) fun b k2 _ less => settlesIte _ (fun is => ?_) fun _ => ?_
  · have := less is
    refine settlesBind (h.select k2 (by omega)) fun sel k3 _ _ => settlesBind (h.setOps _ k3 (by omega)) fun s _ _ _ => ?_
    exact settlesBind getSettles fun _ _ _ _ => settlesEnd
  refine settlesBind (eatSettles (by decide)) fun b k3 _ less => settlesIte _ (fun is => ?_) fun _ => ?_
  · have := less is
    exact h.update k3 (by omega)
  refine settlesBind (eatSettles (by decide)) fun b k4 _ less => settlesIte _ (fun is => ?_) fun _ => ?_
  · have := less is
    exact h.delete k4 (by omega)
  refine settlesBind (eatSettles (by decide)) fun b _ _ _ => settlesIte _ (fun is => ?_) fun _ => ?_
  · exact settlesBind (eatSettles (by decide)) fun _ _ _ _ => settlesEnd
  refine settlesBind (eatSettles (by decide)) fun b _ _ _ => settlesIte _ (fun is => settlesEnd) fun _ => ?_
  exact settlesBind (eatSettles (by decide)) fun b _ _ _ => settlesIte _ (fun is => settlesEnd) fun _ => settlesEnd

theorem setOpsSettles (s : Stmt F) (enough : 5 * m + 1 ≤ n + 1) :
    Settles m (parseSetOps (n + 1) s : Parse F (Stmt F)) (parseSetOps (n' + 1) s) Any := by
  rw [parseSetOps,parseSetOps]
  refine settlesBind setOpSettles fun op k _ less => ?_
  cases op with
  | none => exact settlesEnd
  | some op =>
    have := less rfl
    refine settlesBind (eatSettles (by decide)) fun _ k1 _ _ => settlesBind (h.select k1 (by omega)) fun _ k2 _ _ => ?_
    exact h.setOps _ k2 (by omega)

theorem ctesSettles (enough : 5 * m + 2 ≤ n + 1) :
    Settles m (parseCtes (n + 1) : Parse F (List (CTE F))) (parseCtes (n' + 1)) Any := by
  rw [parseCtes,parseCtes]
  refine settlesBind identSettles fun name k _ _ => settlesBind (eatSettles (by decide)) fun b k1 _ _ => ?_
  extract_lets body body'
  have afterColumns (j : Nat) (small : j ≤ m) : Settles j (body ()) (body' ()) Any := by
    refine settlesBind (eatSettles (by decide)) fun _ j1 _ _ => settlesBind (eatSettles (by decide)) fun _ j2 _ _ => ?_
    refine settlesBind (h.stmt j2 (by omega)) fun body j3 _ _ => settlesBind (eatSettles (by decide)) fun _ j4 _ _ => ?_
    exact moreSettles fun j5 _ => h.ctes j5 (by omega)
  refine settlesIte _ (fun _ => ?_) fun _ => afterColumns _ (by omega)
  refine settlesBind skipSettles fun _ k2 _ _ => settlesBind (eatSettles (by decide)) fun _ k3 _ _ => ?_
  exact afterColumns _ (by omega)

theorem withSettles (enough : 5 * m + 3 ≤ n + 1) :
    Settles m (parseWith (n + 1) : Parse F (Stmt F)) (parseWith (n' + 1)) Any := by
  rw [parseWith,parseWith]
  refine settlesBind (eatSettles (by decide)) fun _ k _ _ => settlesBind (h.ctes k (by omega)) fun ctes k1 _ _ => ?_
  refine settlesBind (eatSettles (by decide)) fun b k2 _ less => settlesIte _ (fun _ => settlesEnd) fun is => ?_
  have := less (by simpa using is)
  exact settlesBind (h.select k2 (by omega)) fun _ _ _ _ => settlesEnd

theorem selectSettles (enough : 5 * m + 5 ≤ n + 1) :
    Settles m (parseSelect (n + 1) : Parse F (SelectStmt F)) (parseSelect (n' + 1)) Any := by
  rw [parseSelect,parseSelect]
  refine settlesBind (eatSettles (by decide)) fun distinct k0 small0 _ => ?_
  extract_lets all all'
  have afterAll (k : Nat) (small : k ≤ m) : Settles k (all ()) (all' ()) Any := by
    refine settlesBind (h.selectList k (by omega)) fun selectList k1 _ _ => settlesBind (eatSettles (by decide)) fun b k2 _ less => ?_
    extract_lets from_ from_'
    have afterFrom (tables : List (FromItem F)) (k : Nat) (small : k ≤ m) : Settles k (from_ tables) (from_' tables) Any := by
      refine settlesBind (h.joins k (by omega)) fun joins k1 _ _ => settlesBind (eatSettles (by decide)) fun b k2 _ less => ?_
      extract_lets group group'
      have afterWhere (where_ : Option (Expr F)) (k : Nat) (small : k ≤ m) : Settles k (group where_) (group' where_) Any := by
        refine settlesBind (eatSettles (by decide)) fun b k2 _ less => ?_
        extract_lets having having'
        have afterGroup (groupBy : List (Expr F)) (k : Nat) (small : k ≤ m) : Settles k (having groupBy) (having' groupBy) Any := by
          refine settlesBind (eatSettles (by decide)) fun b k2 _ less => ?_
          extract_lets order order'
          have afterHaving (having : Option (Expr F)) (k : Nat) (small : k ≤ m) : Settles k (order having) (order' having) Any := by
            refine settlesBind (eatSettles (by decide)) fun b k2 _ less => ?_
            extract_lets count
            have afterOrder (orderBy : List (OrderItem F)) (k : Nat) : Settles k (count orderBy) (count orderBy) Any := by
              refine settlesBind (countSettles (by decide) _) fun _ _ _ _ => settlesBind (countSettles (by decide) _) fun _ _ _ _ => ?_
              exact settlesBind pagingSettles fun _ _ _ _ => settlesEnd
            refine clauseSettles (fun _ _ _ => afterOrder _ _) fun is => ?_
            have := less is
            refine settlesBind (eatSettles (by decide)) fun _ k3 _ _ => settlesBind (h.order true k3 (by omega)) fun _ _ _ _ => ?_
            exact afterOrder _ _
          refine clauseSettles (fun _ _ _ => afterHaving _ _ (by omega)) fun is => ?_
          have := less is
          exact settlesBind (settlesMap some (h.expr 0 k2 (by omega))) fun _ _ _ _ => afterHaving _ _ (by omega)
        refine clauseSettles (fun _ _ _ => afterGroup _ _ (by omega)) fun is => ?_
        have := less is
        refine settlesBind (eatSettles (by decide)) fun _ k3 _ _ => settlesBind (h.list k3 (by omega)) fun _ _ _ _ => ?_
        exact afterGroup _ _ (by omega)
      refine clauseSettles (fun _ _ _ => afterWhere _ _ (by omega)) fun is => ?_
      have := less is
      exact settlesBind (settlesMap some (h.expr 0 k2 (by omega))) fun _ _ _ _ => afterWhere _ _ (by omega)
    refine clauseSettles (fun _ _ _ => afterFrom _ _ (by omega)) fun is => ?_
    have := less is
    exact settlesBind (h.from_ k2 (by omega)) fun _ _ _ _ => afterFrom _ _ (by omega)
  refine settlesIte _ (fun _ => ?_) fun _ => afterAll _ small0
  exact settlesBind (eatSettles (by decide)) fun _ k1 _ _ => afterAll _ (by omega)

theorem joinsSettles (enough : 5 * m + 1 ≤ n + 1) :
    Settles m (parseJoins (n + 1) : Parse F (List (FromItem F))) (parseJoins (n' + 1)) Any := by
  rw [parseJoins,parseJoins]
  refine settlesBind joinSettles fun jt k _ _ => ?_
  cases jt with
  | none => exact settlesEnd
  | some jt =>
    refine settlesBind (eatSettles (by decide)) fun b k1 _ less => settlesIte _ (fun _ => settlesEnd) fun is => ?_
    have := less (by simpa using is)
    refine settlesBind (eatSettles (by decide)) fun b k2 _ _ => ?_
    extract_lets close close'
    have afterItem (item : Option Bytes × Option (Stmt F)) (j : Nat) (small : j ≤ k1) : Settles j (close item) (close' item) Any := by
      refine settlesBind aliasSettles fun _ j1 _ _ => settlesBind (eatSettles (by decide)) fun b j2 _ less => ?_
      extract_lets last last'
      have ends (on : Option (Expr F)) (j : Nat) (small : j ≤ k1) : Settles j (last on) (last' on) Any :=
        settlesBind (h.joins j (by omega)) fun _ _ _ _ => settlesEnd
      refine clauseSettles (fun _ _ _ => ends _ _ (by omega)) fun is => ?_
      exact settlesBind (settlesMap some (h.expr 0 j2 (by omega))) fun _ _ _ _ => ends _ _ (by omega)
    refine settlesIte _ (fun _ => ?_) fun _ => ?_
    · refine settlesBind (h.derived k2 (by omega)) fun _ _ _ _ => settlesBind (eatSettles (by decide)) fun _ _ _ _ => ?_
      exact settlesBind (p := Any) settlesEnd fun _ _ _ _ => afterItem _ _ (by omega)
    · refine settlesBind identSettles fun _ _ _ _ => settlesBind (p := Any) settlesEnd fun _ _ _ _ => ?_
      exact afterItem _ _ (by omega)

/-- The one place that gives tokens back: it starts again where it began. -/
theorem selectExprSettles (enough : 5 * m + 3 ≤ n + 1) :
    Settles m (parseSelectExpr (n + 1) : Parse F (Expr F)) (parseSelectExpr (n' + 1)) Any := by
  rw [parseSelectExpr,parseSelectExpr]
  refine settlesBind (eatSettles (by decide)) fun b k _ _ => settlesIte _ (fun _ => settlesEnd) fun _ => ?_
  extract_lets base base'
  have afterBack : Settles k (base ()) (base' ()) Any := by
    refine settlesBind (h.expr 0 k (by omega)) fun e _ _ _ => settlesBind (eatSettles (by decide)) fun _ _ _ _ => ?_
    refine settlesIte _ (fun _ => ?_) fun _ => ?_
    · exact settlesBind consumeSettles fun _ _ _ _ => settlesIte _ (fun _ => settlesEnd) fun _ => settlesEnd
    · refine settlesBind (peekIsSettles _) fun _ _ _ _ => settlesIte _ (fun _ => ?_) fun _ => settlesEnd
      exact settlesBind consumeSettles fun _ _ _ _ => settlesEnd
  refine settlesSave fun l small => ?_
  refine returnsBind (fun _ => peekIsSettles _) fun c => returnsIte _ (fun _ => ?_) fun _ => returnsSettled afterBack small
  refine returnsBind (fun _ => consumeSettles) fun id => returnsBind (fun _ => eatSettles (by decide)) fun dot => ?_
  refine returnsIte _ (fun _ => ?_) fun _ => returnsSet afterBack small
  refine returnsBind (fun _ => eatSettles (by decide)) fun star => returnsIte _ (fun _ => ?_) fun _ => returnsSet afterBack small
  exact fun s behind => ⟨_,s,rfl,rfl,behind⟩

end

/-- With fuel enough for its tokens every function of the parser ends, and more fuel changes nothing. -/
theorem halting (F : Type) [JsonDoubles F] (n d : Nat) : Halting F n (n + d) := by
  induction n with
  | zero => constructor <;> intros <;> omega
  | succ n ih =>
    rw [Nat.add_right_comm]
    exact ⟨fun m enough => primSettles ih enough,fun m enough => armsSettles ih enough,
      fun name m enough => callSettles ih name enough,fun m enough => argsSettles ih enough,
      fun m enough => listSettles ih enough,fun nulls m enough => orderSettles ih nulls enough,
      fun m enough => windowSettles ih enough,fun p m enough => exprSettles ih p enough,
      fun p e m enough => loopSettles ih p e enough,fun m enough => rangeSettles ih enough,
      fun m enough => itemsSettles ih enough,fun m enough => selectExprSettles ih enough,
      fun m enough => selectListSettles ih enough,fun m enough => derivedSettles ih enough,
      fun m enough => fromSettles ih enough,fun m enough => joinsSettles ih enough,fun m enough => selectSettles ih enough,
      fun m enough => ctesSettles ih enough,fun m enough => withSettles ih enough,fun m enough => updateSettles ih enough,
      fun m enough => deleteSettles ih enough,fun m enough => stmtSettles ih enough,fun s m enough => setOpsSettles ih s enough⟩

/-! ### Every text -/

/-- From any place in a text a parser ends, at that place or behind it, after at most five calls within each other for a token. -/
def Halts {F α : Type} [Doubles F] (rank : Nat) (f : Nat → Parse F α) : Prop :=
  ∀ (s : Bytes) (er : Option String), ∃ a r er', r <:+ s ∧
    ∀ fuel, 5 * (lexAll F s).length + rank ≤ fuel → f fuel ⟨lexAll F s,er⟩ = some (a,⟨lexAll F r,er'⟩)

theorem haltsOf {F α : Type} [Doubles F] {rank : Nat} {f : Nat → Parse F α}
    (settles : ∀ m n d, 5 * m + rank ≤ n → Settles m (f n) (f (n + d)) Any) : Halts rank f := by
  intro s er
  obtain ⟨a,⟨toks,er'⟩,run,_,left,_⟩ := settles _ _ 0 (Nat.le_refl _) ⟨lexAll F s,er⟩ (Nat.le_refl _)
  obtain ⟨r,behind,rfl⟩ := tokensBehind left
  refine ⟨a,r,er',behind,fun fuel enough => ?_⟩
  obtain ⟨d,rfl⟩ := Nat.exists_eq_add_of_le enough
  obtain ⟨b,l,run',more,_⟩ := settles _ _ d (Nat.le_refl _) ⟨lexAll F s,er⟩ (Nat.le_refl _)
  cases run.symm.trans run'
  exact more

/-- Every function of the parser ends. -/
structure ParserEnds (F : Type) [JsonDoubles F] : Prop where
  prim : Halts 1 (parsePrimary : Nat → Parse F (Expr F))
  arms : Halts 1 (parseArms : Nat → Parse F (List (Expr F × Expr F)))
  call : ∀ name : Bytes, Halts 4 (fun n => parseCall n name : Nat → Parse F (Expr F))
  args : Halts 3 (parseArgs : Nat → Parse F (List (Expr F)))
  list : Halts 3 (parseList : Nat → Parse F (List (Expr F)))
  order : ∀ nulls : Bool, Halts 3 (fun n => parseOrder n nulls : Nat → Parse F (List (OrderItem F)))
  window : Halts 1 (parseWindowSpec : Nat → Parse F (WindowSpec F))
  expr : ∀ p : Int, Halts 2 (fun n => parseExpr n p : Nat → Parse F (Expr F))
  loop : ∀ (p : Int) (e : Expr F), Halts 1 (fun n => exprLoop n p e : Nat → Parse F (Expr F))
  range : Halts 3 (parseRange : Nat → Parse F (Expr F))
  items : Halts 4 (parseItems : Nat → Parse F (Expr F))
  selectExpr : Halts 3 (parseSelectExpr : Nat → Parse F (Expr F))
  selectList : Halts 4 (parseSelectList : Nat → Parse F (List (Expr F)))
  derived : Halts 2 (parseDerived : Nat → Parse F (Option (Stmt F)))
  from_ : Halts 1 (parseFrom : Nat → Parse F (List (FromItem F)))
  joins : Halts 1 (parseJoins : Nat → Parse F (List (FromItem F)))
  select : Halts 5 (parseSelect : Nat → Parse F (SelectStmt F))
  ctes : Halts 2 (parseCtes : Nat → Parse F (List (CTE F)))
  with_ : Halts 3 (parseWith : Nat → Parse F (Stmt F))
  update : Halts 1 (parseUpdate : Nat → Parse F (Stmt F))
  delete : Halts 1 (parseDelete : Nat → Parse F (Stmt F))
  stmt : Halts 1 (parseStmt : Nat → Parse F (Stmt F))
  setOps : ∀ s : Stmt F, Halts 1 (fun n => parseSetOps n s : Nat → Parse F (Stmt F))

theorem parserEnds (F : Type) [JsonDoubles F] : ParserEnds F :=
  ⟨haltsOf fun m n d enough => (halting F n d).prim m enough,haltsOf fun m n d enough => (halting F n d).arms m enough,
    fun name => haltsOf fun m n d enough => (halting F n d).call name m enough,
    haltsOf fun m n d enough => (halting F n d).args m enough,haltsOf fun m n d enough => (halting F n d).list m enough,
    fun nulls => haltsOf fun m n d enough => (halting F n d).order nulls m enough,
    haltsOf fun m n d enough => (halting F n d).window m enough,
    fun p => haltsOf fun m n d enough => (halting F n d).expr p m enough,
    fun p e => haltsOf fun m n d enough => (halting F n d).loop p e m enough,
    haltsOf fun m n d enough => (halting F n d).range m enough,haltsOf fun m n d enough => (halting F n d).items m enough,
    haltsOf fun m n d enough => (halting F n d).selectExpr m enough,
    haltsOf fun m n d enough => (halting F n d).selectList m enough,haltsOf fun m n d enough => (halting F n d).derived m enough,
    haltsOf fun m n d enough => (halting F n d).from_ m enough,haltsOf fun m n d enough => (halting F n d).joins m enough,
    haltsOf fun m n d enough => (halting F n d).select m enough,haltsOf fun m n d enough => (halting F n d).ctes m enough,
    haltsOf fun m n d enough => (halting F n d).with_ m enough,haltsOf fun m n d enough => (halting F n d).update m enough,
    haltsOf fun m n d enough => (halting F n d).delete m enough,haltsOf fun m n d enough => (halting F n d).stmt m enough,
    fun s => haltsOf fun m n d enough => (halting F n d).setOps s m enough⟩

theorem tokensFew {F : Type} [Doubles F] (s : Bytes) : (lexAll F s).length ≤ s.length := by
  induction h : s.length using Nat.strongRecOn generalizing s with
  | _ n ih =>
    cases s with
    | nil => exact Nat.zero_le _
    | cons c s =>
      have less := lexStepShorter (F := F) c s
      have one := stepOne (F := F) c s
      have := ih _ (h ▸ less) _ rfl
      rw [lexAllCons,List.length_append]
      omega

/-- `sql_parse` ends on every text: each token that is read leaves less of it, no function goes back behind the place where it
began, and the calls within each other are at most linear in the text. -/
theorem sqlParseEnds (F : Type) [JsonDoubles F] :
    (∀ s : Bytes, (lexNext F s).2 <:+ s ∧ (s ≠ [] → (lexNext F s).2.length < s.length)) ∧ ParserEnds F ∧
      ∀ query : Bytes, ∃ s : Stmt F, ∀ fuel, 5 * query.length + 1 ≤ fuel → sqlParse fuel query = some s := by
  refine ⟨nextForward,parserEnds F,fun query => ?_⟩
  obtain ⟨s,r,er,_,run⟩ := (parserEnds F).stmt query none
  have few := tokensFew (F := F) query
  exact ⟨_,fun fuel enough => by rw [sqlParse,run fuel (by omega)]; rfl⟩

end Napastak.SqlParser
