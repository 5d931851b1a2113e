import Napastak.Lexer

/-! The rules of the scanner: the lexemes, each with the tokens it gives and the bytes that would still belong to it.
One byte behind a lexeme decides that it ends there. -/
namespace Napastak.Sql
open Query Munch

/-- The text of a string literal: every quote is doubled. -/
inductive Paired : Bytes → Prop
  | nil : Paired []
  | quote {b : Bytes} : Paired b → Paired (39 :: 39 :: b)
  | other {c : UInt8} {b : Bytes} : c ≠ 39 → Paired b → Paired (c :: b)

/-- The bytes that make more of an operator, or a comment. -/
def opGoes (c : UInt8) (pairs : List (UInt8 × TkType)) (y : UInt8) : Bool :=
  (pairs.lookup y).isSome || (c = 45 && y = 45) || (c = 47 && y = 42)

/-- A byte that only makes an error. -/
def Stray (c : UInt8) : Prop :=
  isspace c = false ∧ operators c = none ∧ c ≠ 34 ∧ c ≠ 96 ∧ c ≠ 39 ∧ isdigit c = false ∧ isalpha c = false ∧ c ≠ 95

section
variable (F : Type) [Doubles F]

inductive Lexeme : Bytes → List (Token F) → (UInt8 → Bool) → Prop
  | space {c : UInt8} : isspace c = true → Lexeme [c] [] fun _ => false
  | line {b : Bytes} : (∀ c ∈ b, c ≠ 10) → Lexeme (45 :: 45 :: b) [] fun y => y ≠ 10
  | block {b : Bytes} : blockEnd (b ++ [42,47]) = [] → Lexeme (47 :: 42 :: (b ++ [42,47])) [] fun _ => false
  | op {c : UInt8} {t : TkType} {pairs : List (UInt8 × TkType)} : operators c = some (t,pairs) →
      Lexeme [c] [tok F t] (opGoes c pairs)
  | pair {c y : UInt8} {t u : TkType} {pairs : List (UInt8 × TkType)} : operators c = some (t,pairs) →
      pairs.lookup y = some u → Lexeme [c,y] [tok F u] fun _ => false
  | quoted {q : UInt8} {b : Bytes} : q = 34 ∨ q = 96 → (∀ c ∈ b, c ≠ q) →
      Lexeme (q :: (b ++ [q])) [⟨.ident,b,0,Doubles.zero⟩] fun _ => false
  | string {b : Bytes} : Paired b → Lexeme (39 :: (b ++ [39])) [⟨.string,b,0,Doubles.zero⟩] fun y => y = 39
  | number {c : UInt8} {x : Bytes} {st : NumState} : isdigit c = true → path numNext .int (c :: x) = some st →
      Lexeme (c :: x) [numToken F (c :: x) st] fun y => (numNext st y).isSome
  | word {c : UInt8} {w : Bytes} : isalpha c = true ∨ c = 95 → (∀ d ∈ w, wordChar d = true) →
      Lexeme (c :: w) [wordToken F (c :: w)] wordChar
  | stray {c : UInt8} : Stray c → Lexeme [c] [tok F .error] fun _ => false

end

/-- An operator is no blank, quote, digit or letter. -/
theorem operatorClass {c : UInt8} {t : TkType} {pairs : List (UInt8 × TkType)} (h : operators c = some (t,pairs)) :
    isspace c = false ∧ c ≠ 34 ∧ c ≠ 96 ∧ c ≠ 39 ∧ isdigit c = false ∧ isalpha c = false ∧ c ≠ 95 := by
  obtain ⟨before,after,table,_⟩ := List.lookup_eq_some_iff.mp h
  have mem : (c,t,pairs) ∈ operatorTable := table ▸ List.mem_append_right _ (List.mem_cons_self ..)
  have all : ∀ o ∈ operatorTable, isspace o.1 = false ∧ o.1 ≠ 34 ∧ o.1 ≠ 96 ∧ o.1 ≠ 39 ∧ isdigit o.1 = false ∧
      isalpha o.1 = false ∧ o.1 ≠ 95 := by decide
  exact all _ mem

/-! ### Comments and strings -/

theorem blockSound (s : Bytes) : (∃ b, s = b ++ 42 :: 47 :: blockEnd s ∧ blockEnd (b ++ [42,47]) = []) ∨
    ∃ b, s = b ++ blockEnd s ∧ (blockEnd s).length ≤ 1 := by
  induction s with
  | nil => exact .inr ⟨[],rfl,Nat.zero_le _⟩
  | cons c s ih =>
    cases s with
    | nil => exact .inr ⟨[],rfl,Nat.le_refl _⟩
    | cons d s =>
      rw [blockEnd]
      by_cases ends : c = 42 ∧ d = 47
      · rw [if_pos ends,ends.1,ends.2]
        exact .inl ⟨[],rfl,rfl⟩
      · rw [if_neg ends]
        rcases ih with ⟨b,split,first⟩ | ⟨b,split,short⟩
        · refine .inl ⟨c :: b,congrArg (c :: ·) split,?_⟩
          cases b with
          | nil =>
            have other : ¬ (c = 42 ∧ (42 : UInt8) = 47) := fun e => absurd e.2 (by decide)
            rw [List.cons_append,List.nil_append,blockEnd,if_neg other]
            exact first
          | cons e b =>
            have same : d = e := (List.cons.inj split).1
            rw [List.cons_append,List.cons_append,blockEnd,if_neg (same ▸ ends)]
            exact first
        · exact .inr ⟨c :: b,congrArg (c :: ·) split,short⟩

theorem blockComplete {b : Bytes} (first : blockEnd (b ++ [42,47]) = []) (r : Bytes) : blockEnd (b ++ 42 :: 47 :: r) = r := by
  induction b with
  | nil => rfl
  | cons c b ih =>
    cases b with
    | nil =>
      have other : ¬ (c = 42 ∧ (42 : UInt8) = 47) := fun e => absurd e.2 (by decide)
      rw [List.cons_append,List.nil_append,blockEnd,if_neg other]
      exact ih rfl
    | cons d b =>
      rw [List.cons_append,List.cons_append,blockEnd] at first ⊢
      split at first
      · cases b <;> cases first
      · rename_i other
        rw [if_neg other]
        exact ih first

theorem stringSound : ∀ s : Bytes, (s = (stringBody s).1 ++ 39 :: (stringBody s).2 ∧ Paired (stringBody s).1 ∧
    ∀ y, (stringBody s).2.head? = some y → y ≠ 39) ∨ (stringBody s).2 = []
  | [] => .inr rfl
  | [c] => by
    rw [stringBody]
    split
    · rename_i quote
      rw [quote]
      exact .inl ⟨rfl,.nil,fun y hy => nomatch hy⟩
    · exact .inr rfl
  | c :: d :: s => by
    rw [stringBody]
    by_cases quote : c = 39
    · rw [if_pos quote,quote]
      by_cases twice : d = 39
      · rw [if_pos twice,twice]
        rcases stringSound s with ⟨split,paired,stop⟩ | open_
        · exact .inl ⟨congrArg (39 :: 39 :: ·) split,.quote paired,stop⟩
        · exact .inr open_
      · rw [if_neg twice]
        exact .inl ⟨rfl,.nil,fun y hy => by cases hy; exact twice⟩
    · rw [if_neg quote]
      rcases stringSound (d :: s) with ⟨split,paired,stop⟩ | open_
      · exact .inl ⟨congrArg (c :: ·) split,.other quote paired,stop⟩
      · exact .inr open_

theorem stringComplete {b r : Bytes} (paired : Paired b) (stop : ∀ y, r.head? = some y → y ≠ 39) :
    stringBody (b ++ 39 :: r) = (b,r) := by
  induction paired with
  | nil =>
    cases r with
    | nil => rfl
    | cons y r => rw [List.nil_append,stringBody,if_pos rfl,if_neg (stop y rfl)]
  | quote _ ih => rw [List.cons_append,List.cons_append,stringBody,if_pos rfl,if_pos rfl,ih]
  | @other c b ne _ ih =>
    cases h : b ++ 39 :: r with
    | nil => cases b <;> cases h
    | cons d s =>
      rw [List.cons_append,h,stringBody,if_neg ne,← h,ih]

/-! ### One round of the scanner -/

theorem noOperator {c : UInt8} (h : isdigit c = true ∨ isalpha c = true ∨ c = 95 ∨ c = 34 ∨ c = 96 ∨ c = 39) : operators c = none := by
  cases op : operators c with
  | none => rfl
  | some p =>
    obtain ⟨_,h34,h96,h39,digit_,alpha,h95⟩ := operatorClass op
    rcases h with h | h | h | h | h | h
    · rw [digit_] at h; cases h
    · rw [alpha] at h; cases h
    · exact absurd h h95
    · exact absurd h h34
    · exact absurd h h96
    · exact absurd h h39

theorem noSpace {c : UInt8} (lo : 33 ≤ c.toNat) : isspace c = false := by
  simp only [isspace,decide_eq_false_iff_not,UInt8.le_iff_toNat_le]
  rintro (rfl | h)
  · exact absurd lo (by decide)
  · have : (13 : UInt8).toNat = 13 := rfl
    omega

theorem digitClass {c : UInt8} (h : isdigit c = true) : isspace c = false ∧ c ≠ 45 ∧ c ≠ 47 ∧ c ≠ 34 ∧ c ≠ 96 ∧ c ≠ 39 := by
  have range : 48 ≤ c ∧ c ≤ 57 := of_decide_eq_true h
  have lo : 48 ≤ c.toNat := UInt8.le_iff_toNat_le.mp range.1
  have hi : c.toNat ≤ 57 := UInt8.le_iff_toNat_le.mp range.2
  have ne : ∀ d : UInt8, d.toNat < 48 ∨ 57 < d.toNat → c ≠ d := fun d far e => by subst e; omega
  exact ⟨noSpace (by omega),ne 45 (by decide),ne 47 (by decide),ne 34 (by decide),ne 96 (by decide),ne 39 (by decide)⟩

theorem letterClass {c : UInt8} (h : isalpha c = true ∨ c = 95) :
    isspace c = false ∧ c ≠ 45 ∧ c ≠ 47 ∧ c ≠ 34 ∧ c ≠ 96 ∧ c ≠ 39 ∧ isdigit c = false := by
  have range : 65 ≤ c.toNat ∧ c.toNat ≤ 95 ∨ 97 ≤ c.toNat := by
    rcases h with h | rfl
    · have cases_ : (65 ≤ c ∧ c ≤ 90) ∨ (97 ≤ c ∧ c ≤ 122) := of_decide_eq_true h
      simp only [UInt8.le_iff_toNat_le,show (65 : UInt8).toNat = 65 from rfl,show (90 : UInt8).toNat = 90 from rfl,
        show (97 : UInt8).toNat = 97 from rfl] at cases_
      omega
    · exact .inl (by decide)
  have ne : ∀ d : UInt8, d.toNat < 65 ∨ d.toNat = 96 → c ≠ d := fun d far e => by subst e; omega
  refine ⟨noSpace (by omega),ne 45 (by decide),ne 47 (by decide),ne 34 (by decide),ne 96 (by decide),ne 39 (by decide),?_⟩
  simp only [isdigit,decide_eq_false_iff_not,UInt8.le_iff_toNat_le,show (57 : UInt8).toNat = 57 from rfl]
  omega

section
variable {F : Type} [Doubles F] {x r : Bytes} {ts : List (Token F)} {go : UInt8 → Bool}

/-- A lexeme is scanned as its rule says wherever the byte behind it does not belong to it. -/
theorem lexStepComplete (lexeme : Lexeme F x ts go) (stop : ∀ y, r.head? = some y → go y = false) :
    lexStep F (x ++ r) = (ts,r) := by
  cases lexeme with
  | space blank => simp [lexStep,blank]
  | @line b plain =>
    have taken := (takeStop (p := fun c => decide (c ≠ 10)) (x := b) (r := r) (fun c hc => decide_eq_true (plain c hc))
      fun y hy => stop y hy).2
    simp only [List.cons_append,lexStep,show isspace 45 = false by decide,List.head?_cons,List.drop_one,List.tail_cons]
    exact congrArg (Prod.mk []) taken
  | @block b first =>
    have taken := blockComplete first r
    simp only [List.cons_append,List.append_assoc,lexStep,show isspace 47 = false by decide,List.head?_cons,List.drop_one,
      List.tail_cons]
    exact congrArg (Prod.mk []) taken
  | @op c t pairs known =>
    obtain ⟨blank,_⟩ := operatorClass known
    have none_ : (r.head?.bind fun y => pairs.lookup y) = none := by
      cases h : r.head? with
      | none => rfl
      | some y =>
        have quiet := stop y h
        simp only [opGoes,Bool.or_eq_false_iff,Option.isSome_eq_false_iff] at quiet
        exact Option.isNone_iff_eq_none.mp quiet.1.1
    have noLine : ¬ (c = 45 ∧ r.head? = some 45) := fun e => by
      have quiet := stop 45 e.2
      simp [opGoes,e.1] at quiet
    have noBlock : ¬ (c = 47 ∧ r.head? = some 42) := fun e => by
      have quiet := stop 42 e.2
      simp [opGoes,e.1] at quiet
    simp only [List.cons_append,List.nil_append,lexStep,blank,Bool.false_eq_true,if_false,if_neg noLine,if_neg noBlock,known,none_]
  | @pair c y t u pairs known more =>
    obtain ⟨blank,_⟩ := operatorClass known
    have noLine : c ≠ 45 := fun e => by
      rw [e] at known
      cases known
      cases more
    have noBlock : c ≠ 47 := fun e => by
      rw [e] at known
      cases known
      cases more
    simp [lexStep,blank,noLine,noBlock,known,more]
  | @quoted q b quote plain =>
    have class_ : isspace q = false ∧ q ≠ 45 ∧ q ≠ 47 := by rcases quote with rfl | rfl <;> decide
    obtain ⟨taken,left⟩ := takeStop (p := fun c => decide (c ≠ q)) (x := b) (r := q :: r)
      (fun c hc => decide_eq_true (plain c hc)) fun y hy => by cases hy; simp
    have none_ := noOperator (c := q) (.inr (.inr (.inr (quote.imp id .inl))))
    simp only [List.cons_append,List.append_assoc,List.nil_append,lexStep,class_.1,Bool.false_eq_true,if_false,class_.2,false_and,
      none_,if_pos quote,taken,left,List.drop_one,List.tail_cons]
  | @string b paired =>
    have taken := stringComplete paired (r := r) fun y hy => of_decide_eq_false (stop y hy)
    have none_ := noOperator (c := 39) (by simp)
    simp only [List.cons_append,List.append_assoc,List.nil_append,lexStep,show isspace 39 = false by decide,none_,taken]
    rfl
  | @number c w st digit_ taken =>
    obtain ⟨blank,h45,h47,h34,h96,h39⟩ := digitClass digit_
    have run := munchComplete taken (r := r) fun y hy => Option.isSome_eq_false_iff.mp (stop y hy) |> Option.isNone_iff_eq_none.mp
    rw [List.cons_append] at run
    simp only [List.cons_append,lexStep,blank,Bool.false_eq_true,if_false,h45,h47,h34,h96,h39,false_and,or_self,
      noOperator (.inl digit_),digit_,if_true,run]
  | @word c w letter inside =>
    obtain ⟨blank,h45,h47,h34,h96,h39,digit_⟩ := letterClass letter
    obtain ⟨taken,left⟩ := takeStop (p := wordChar) (x := w) (r := r) inside stop
    simp only [List.cons_append,lexStep,blank,Bool.false_eq_true,if_false,h45,h47,h34,h96,h39,false_and,or_self,
      noOperator (.inr (letter.imp id .inl)),digit_,if_pos letter,taken,left]
  | @stray c apart =>
    obtain ⟨blank,none_,h34,h96,h39,digit_,alpha,h95⟩ := apart
    have h45 : c ≠ 45 := fun e => by rw [e] at none_; cases none_
    have h47 : c ≠ 47 := fun e => by rw [e] at none_; cases none_
    simp [lexStep,blank,none_,h34,h96,h39,digit_,alpha,h95,h45,h47]

/-- What a round leaves: the text behind a lexeme, or at most one byte behind one that does not end. -/
def Scanned (F : Type) [Doubles F] (s : Bytes) (ts : List (Token F)) (r : Bytes) : Prop :=
  (∃ x go, s = x ++ r ∧ Lexeme F x ts go ∧ ∀ y, r.head? = some y → go y = false) ∨
    ∃ x, x ≠ [] ∧ s = x ++ r ∧ r.length ≤ 1

theorem wordScanned {c : UInt8} (letter : isalpha c = true ∨ c = 95) (s : Bytes) :
    Scanned F (c :: s) [wordToken F (c :: s.takeWhile wordChar)] (s.dropWhile wordChar) := by
  refine .inl ⟨c :: s.takeWhile wordChar,wordChar,?_,.word letter fun d hd => List.all_eq_true.mp List.all_takeWhile d hd,fun y hy => dropStop hy⟩
  rw [List.cons_append,List.takeWhile_append_dropWhile]

theorem numberScanned {c : UInt8} (digit_ : isdigit c = true) (s : Bytes) :
    Scanned F (c :: s) [numToken F (munch numNext .int (c :: s)).1 (munch numNext .int (c :: s)).2.2]
      (munch numNext .int (c :: s)).2.1 := by
  have first : ∃ w, (munch numNext .int (c :: s)).1 = c :: w := by
    have go : numNext .int c = some .int := by rw [numNext,if_pos digit_]
    rw [munch,go]
    exact ⟨_,rfl⟩
  obtain ⟨w,is⟩ := first
  obtain ⟨⟨x,r,st⟩,run⟩ : ∃ p, munch numNext .int (c :: s) = p := ⟨_,rfl⟩
  obtain ⟨split,taken,stop⟩ := munchSound run
  rw [run] at is ⊢
  simp only at is
  rw [is] at split taken ⊢
  exact .inl ⟨c :: w,_,split,.number digit_ taken,fun y hy => by rw [stop y hy]; rfl⟩

theorem operatorScanned {c : UInt8} {t : TkType} {pairs : List (UInt8 × TkType)} (known : operators c = some (t,pairs)) {s : Bytes}
    (noLine : ¬ (c = 45 ∧ s.head? = some 45)) (noBlock : ¬ (c = 47 ∧ s.head? = some 42)) :
    Scanned F (c :: s) (match s.head?.bind fun y => pairs.lookup y with
      | some u => ([tok F u],s.drop 1)
      | none => ([tok F t],s)).1 (match s.head?.bind fun y => pairs.lookup y with
      | some u => ([tok F u],s.drop 1)
      | none => ([tok F t],s)).2 := by
  cases more : s.head?.bind fun y => pairs.lookup y with
  | none =>
    refine .inl ⟨[c],opGoes c pairs,rfl,.op known,fun y hy => ?_⟩
    have alone : pairs.lookup y = none := by rw [hy] at more; exact more
    have h45 : (c = 45 && y = 45) = false := by
      simp only [Bool.and_eq_false_iff,decide_eq_false_iff_not]
      exact (Decidable.not_and_iff_or_not).mp fun e => noLine ⟨e.1,hy.trans (congrArg some e.2)⟩
    have h47 : (c = 47 && y = 42) = false := by
      simp only [Bool.and_eq_false_iff,decide_eq_false_iff_not]
      exact (Decidable.not_and_iff_or_not).mp fun e => noBlock ⟨e.1,hy.trans (congrArg some e.2)⟩
    rw [opGoes,alone,h45,h47]
    rfl
  | some u =>
    obtain ⟨y,hy,look⟩ := Option.bind_eq_some_iff.mp more
    cases s with
    | nil => cases hy
    | cons d s =>
      cases hy
      exact .inl ⟨[c,y],_,rfl,.pair known look,fun y hy => rfl⟩

theorem quotedScanned {q : UInt8} (quote : q = 34 ∨ q = 96) (s : Bytes) :
    Scanned F (q :: s) [⟨.ident,s.takeWhile (· ≠ q),0,Doubles.zero⟩] ((s.dropWhile (· ≠ q)).drop 1) := by
  cases left : s.dropWhile (· ≠ q) with
  | nil =>
    refine .inr ⟨q :: s,List.cons_ne_nil _ _,?_,Nat.zero_le _⟩
    rw [List.drop_nil,List.append_nil]
  | cons y r =>
    have close : y = q := by simpa using dropStop (p := fun c => decide (c ≠ q)) (s := s) (y := y) (by rw [left]; rfl)
    have split : s.takeWhile (· ≠ q) ++ q :: r = s := by
      rw [← close] at left ⊢
      rw [← left]
      exact List.takeWhile_append_dropWhile
    refine .inl ⟨q :: (s.takeWhile (· ≠ q) ++ [q]),_,?_,.quoted quote fun c hc => by
      simpa using List.all_eq_true.mp List.all_takeWhile c hc,fun y hy => rfl⟩
    rw [List.drop_one,List.tail_cons,List.cons_append,List.append_assoc,List.singleton_append,split]

theorem stringScanned (s : Bytes) :
    Scanned F (39 :: s) [⟨.string,(stringBody s).1,0,Doubles.zero⟩] (stringBody s).2 := by
  rcases stringSound s with ⟨split,paired,stop⟩ | open_
  · refine .inl ⟨39 :: ((stringBody s).1 ++ [39]),_,?_,.string paired,fun y hy => decide_eq_false (stop y hy)⟩
    rw [List.cons_append,List.append_assoc,List.singleton_append,← split]
  · rw [open_]
    exact .inr ⟨39 :: s,List.cons_ne_nil _ _,(List.append_nil _).symm,Nat.zero_le _⟩

/-- Every round scans a lexeme, unless a comment, a string or a quoted name does not end. -/
theorem lexStepSound (c : UInt8) (s : Bytes) : Scanned F (c :: s) (lexStep F (c :: s)).1 (lexStep F (c :: s)).2 := by
  rw [lexStep]
  by_cases blank : isspace c = true
  · rw [if_pos blank]
    exact .inl ⟨[c],_,rfl,.space blank,fun y hy => rfl⟩
  rw [if_neg blank]
  by_cases line : c = 45 ∧ s.head? = some 45
  · rw [if_pos line]
    cases s with
    | nil => cases line.2
    | cons d s =>
      cases line.2
      rw [line.1]
      refine .inl ⟨45 :: 45 :: s.takeWhile (· ≠ 10),_,?_,.line fun c hc => by simpa using List.all_eq_true.mp List.all_takeWhile c hc,fun y hy =>
        dropStop (p := fun c => decide (c ≠ 10)) hy⟩
      rw [List.cons_append,List.cons_append,List.drop_one,List.tail_cons,List.takeWhile_append_dropWhile]
  rw [if_neg line]
  by_cases block : c = 47 ∧ s.head? = some 42
  · rw [if_pos block]
    cases s with
    | nil => cases block.2
    | cons d s =>
      cases block.2
      rw [block.1,List.drop_one,List.tail_cons]
      rcases blockSound s with ⟨b,split,first⟩ | ⟨b,split,short⟩
      · refine .inl ⟨47 :: 42 :: (b ++ [42,47]),_,?_,.block first,fun y hy => rfl⟩
        rw [List.cons_append,List.cons_append,List.append_assoc]
        exact congrArg (47 :: 42 :: ·) split
      · exact .inr ⟨47 :: 42 :: b,List.cons_ne_nil _ _,congrArg (47 :: 42 :: ·) split,short⟩
  rw [if_neg block]
  cases known : operators c with
  | some p => exact operatorScanned known line block
  | none =>
    simp only
    by_cases quote : c = 34 ∨ c = 96
    · rw [if_pos quote]
      exact quotedScanned quote s
    rw [if_neg quote]
    by_cases single : c = 39
    · rw [if_pos single,single]
      exact stringScanned s
    rw [if_neg single]
    by_cases digit_ : isdigit c = true
    · rw [if_pos digit_]
      exact numberScanned digit_ s
    rw [if_neg digit_]
    by_cases letter : isalpha c = true ∨ c = 95
    · rw [if_pos letter]
      exact wordScanned letter s
    · rw [if_neg letter]
      exact .inl ⟨[c],_,rfl,.stray ⟨Bool.eq_false_iff.mpr blank,known,fun e => quote (.inl e),fun e => quote (.inr e),single,
        Bool.eq_false_iff.mpr digit_,Bool.eq_false_iff.mpr fun e => letter (.inl e),fun e => letter (.inr e)⟩,fun y hy => rfl⟩

/-! ### The tokens of a whole text -/

theorem lexemeSome {x : Bytes} {ts : List (Token F)} {go : UInt8 → Bool} (lexeme : Lexeme F x ts go) : x ≠ [] := by
  cases lexeme <;> exact List.cons_ne_nil _ _

/-- What one round of the scanner takes. -/
theorem lexStepSplit (c : UInt8) (s : Bytes) : ∃ x, x ≠ [] ∧ c :: s = x ++ (lexStep F (c :: s)).2 ∧
    (c :: s).take ((c :: s).length - (lexStep F (c :: s)).2.length) = x := by
  have split_ : ∃ x, x ≠ [] ∧ c :: s = x ++ (lexStep F (c :: s)).2 := by
    rcases lexStepSound (F := F) c s with ⟨x,go,is,lexeme,_⟩ | ⟨x,ne,is,_⟩
    · exact ⟨x,lexemeSome lexeme,is⟩
    · exact ⟨x,ne,is⟩
  obtain ⟨x,ne,is⟩ := split_
  refine ⟨x,ne,is,?_⟩
  have count := congrArg List.length is
  rw [List.length_append] at count
  rw [count,Nat.add_sub_cancel]
  exact (congrArg (List.take x.length) is).trans (List.take_left ..)

theorem lexStepShorter (c : UInt8) (s : Bytes) : (lexStep F (c :: s)).2.length < (c :: s).length := by
  obtain ⟨x,ne,split,_⟩ := lexStepSplit (F := F) c s
  have := congrArg List.length split
  have := List.length_pos_iff.mpr ne
  rw [List.length_append] at *
  omega

/-- The tokens of a text are those of its first lexeme and those of the rest. -/
theorem lexAllStep (c : UInt8) (s : Bytes) : lexAll F (c :: s) = (lexStep F (c :: s)).1 ++ lexAll F (lexStep F (c :: s)).2 := by
  rw [lexAll,scanStep lexStepShorter,List.flatten_cons]
  rfl

/-- The tokens of a lexeme and of what is left behind it. -/
theorem lexAllAppend {x r : Bytes} {ts : List (Token F)} {go : UInt8 → Bool} (lexeme : Lexeme F x ts go)
    (stop : ∀ y, r.head? = some y → go y = false) : lexAll F (x ++ r) = ts ++ lexAll F r := by
  have step := lexStepComplete lexeme stop
  cases x with
  | nil => exact absurd rfl (lexemeSome lexeme)
  | cons c x =>
    rw [List.cons_append] at step ⊢
    rw [lexAllStep,step]

end

end Napastak.Sql
