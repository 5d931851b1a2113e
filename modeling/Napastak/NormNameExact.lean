import Napastak.NormName

/-! When a normalized name is a normal form: unless a `D0` outside a letter takes a letter or a separator with it. -/
namespace Napastak.NormName

/-! ### What the symbols decide -/

theorem tornAfter (p : Bool) (xs : List Sym) : ∃ bad q, ∀ zs, torn p (xs ++ zs) = (bad || torn q zs) := by
  induction xs generalizing p with
  | nil => exact ⟨false,p,fun _ => rfl⟩
  | cons x xs ih =>
    cases x with
    | sep =>
      obtain ⟨bad,q,all⟩ := ih false
      exact ⟨p || bad,q,fun zs => by rw [List.cons_append,torn,all,Bool.or_assoc]⟩
    | letter l =>
      obtain ⟨bad,q,all⟩ := ih false
      exact ⟨p || bad,q,fun zs => by rw [List.cons_append,torn,all,Bool.or_assoc]⟩
    | other b =>
      obtain ⟨bad,q,all⟩ := ih (!p && b = 0xD0)
      exact ⟨bad,q,fun zs => by rw [List.cons_append,torn,all]⟩

theorem shownAfter (p : Bool) (xs : List Sym) : ∃ out q, ∀ zs, shown p (xs ++ zs) = out ++ shown q zs := by
  induction xs generalizing p with
  | nil => exact ⟨[],p,fun _ => rfl⟩
  | cons x xs ih =>
    cases x with
    | sep =>
      obtain ⟨out,q,all⟩ := ih true
      refine ⟨if p then out else 32 :: out,q,fun zs => ?_⟩
      rw [List.cons_append,shown,all]
      cases p <;> rfl
    | letter l =>
      obtain ⟨out,q,all⟩ := ih false
      exact ⟨l ++ out,q,fun zs => by rw [List.cons_append,shown,all,List.append_assoc]⟩
    | other b =>
      obtain ⟨out,q,all⟩ := ih false
      exact ⟨b :: out,q,fun zs => by rw [List.cons_append,shown,all,List.cons_append]⟩

theorem tornSeps (p : Bool) (m : Nat) (zs : List Sym) : torn p (List.replicate (m + 1) .sep ++ zs) = (p || torn false zs) := by
  induction m generalizing p with
  | zero => rfl
  | succ m ih => rw [List.replicate_succ,List.cons_append,torn,ih,Bool.false_or]

theorem shownSeps (p : Bool) (m : Nat) (zs : List Sym) :
    shown p (List.replicate (m + 1) .sep ++ zs) = (if p then [] else [32]) ++ shown true zs := by
  induction m generalizing p with
  | zero => cases p <;> rfl
  | succ m ih =>
    rw [List.replicate_succ,List.cons_append,shown,ih true]
    cases p <;> rfl

/-- What is left of a text of symbols at the end. -/
def trimmed (xs : List Sym) : Bytes := (shown true xs).rdropWhile (· = 32)

/-- A run of separators counts as one, and as none at an end. -/
theorem sepsCount (xs ys : List Sym) (m : Nat) (place : m = 0 → xs = [] ∨ ys = []) :
    torn false (xs ++ List.replicate m .sep ++ ys) = torn false (xs ++ .sep :: ys) ∧
      trimmed (xs ++ List.replicate m .sep ++ ys) = trimmed (xs ++ .sep :: ys) := by
  rw [List.append_assoc]
  obtain ⟨bad,q,tornAll⟩ := tornAfter false xs
  obtain ⟨out,r,shownAll⟩ := shownAfter true xs
  unfold trimmed
  rw [tornAll,tornAll,shownAll,shownAll]
  cases m with
  | succ m =>
    have one := shownSeps r 0 ys
    rw [tornSeps,shownSeps]
    rw [List.replicate_succ,List.replicate_zero,List.singleton_append] at one
    rw [one]
    exact ⟨rfl,rfl⟩
  | zero =>
    rw [List.replicate_zero,List.nil_append]
    rcases place rfl with rfl | rfl
    · have q_ : (bad || q) = false := (tornAll []).symm.trans rfl
      have first := shownAll [.sep]
      have none_ := shownAll []
      rw [Bool.or_eq_false_iff] at q_
      have r_ : r = true := by
        cases r with
        | true => rfl
        | false =>
          rw [List.nil_append,shown,if_pos rfl,shown,shown,if_neg Bool.false_ne_true] at first
          exact absurd first.symm (List.append_ne_nil_of_right_ne_nil _ (List.cons_ne_nil _ _))
      rw [q_.2,r_]
      exact ⟨rfl,rfl⟩
    · refine ⟨?_,?_⟩
      · rw [torn,torn,torn,Bool.or_false]
      · rw [shown,shown,shown]
        cases r with
        | true => rfl
        | false =>
          rw [if_neg Bool.false_ne_true,List.append_nil]
          exact (List.rdropWhile_concat_pos _ _ _ rfl).symm

theorem variedSame {s s' : Bytes} (h : Varied s s') : torn false (symbols s) = torn false (symbols s') ∧
    trimmed (symbols s) = trimmed (symbols s') := by
  cases h with
  | letter u v both =>
    obtain ⟨capital,small,apart,apart'⟩ := casedSymbols both v
    rw [List.append_assoc,List.append_assoc,symbolsAppend u apart,symbolsAppend u apart',capital,small]
    exact ⟨rfl,rfl⟩
  | @blanks w w' u v first second place place' =>
    have one {w : Bytes} (h : Blanks w) (place : w = [] → u = [] ∨ v = []) : torn false (symbols (u ++ w ++ v)) =
        torn false (symbols u ++ .sep :: symbols v) ∧ trimmed (symbols (u ++ w ++ v)) = trimmed (symbols u ++ .sep :: symbols v) := by
      have split_ : symbols (u ++ w ++ v) = symbols u ++ List.replicate w.length .sep ++ symbols v := by
        by_cases empty : w = []
        · subst empty
          rw [List.append_nil,List.length_nil,List.replicate_zero,List.append_nil]
          rcases place rfl with rfl | rfl
          · rfl
          · rw [List.append_nil]
            exact (List.append_nil _).symm
        · rw [List.append_assoc,symbolsAppend u (blanksApart h empty v),blanksSymbols h,List.append_assoc]
      rw [split_]
      refine sepsCount _ _ _ fun zero => ?_
      rcases place (List.length_eq_zero_iff.mp zero) with rfl | rfl
      · exact .inl rfl
      · exact .inr rfl
    have a := one first place
    have b := one second place'
    exact ⟨a.1.trans b.1.symm,a.2.trans b.2.symm⟩

theorem alikeSame {s s' : Bytes} (h : Alike s s') : torn false (symbols s) = torn false (symbols s') ∧
    trimmed (symbols s) = trimmed (symbols s') := by
  induction h with
  | rel _ _ one => exact variedSame one
  | refl => exact ⟨rfl,rfl⟩
  | symm _ _ _ ih => exact ⟨ih.1.symm,ih.2.symm⟩
  | trans _ _ _ _ _ ih ih' => exact ⟨ih.1.trans ih'.1,ih.2.trans ih'.2⟩

/-! ### A text that is not torn -/

theorem pairNone {d : UInt8} (is : pairLetter 0xD0 d = none) : foldPair d = [0xD0,d] := by
  grind [pairLetter,foldPair]

theorem pairSome {d : UInt8} {lower : Bytes} (is : pairLetter 0xD0 d = some lower) : lower = foldPair d := by
  unfold pairLetter at is
  rw [if_pos rfl] at is
  split at is
  · exact (Option.some.inj is).symm
  · cases is

theorem pairOther {c d : UInt8} {lower : Bytes} (other : c ≠ 0xD0) (is : pairLetter c d = some lower) :
    lower = [c,d] ∧ c = 0xD1 ∧ copied d = true := by
  unfold pairLetter at is
  rw [if_neg other] at is
  split at is
  · rename_i lead
    split at is
    · rename_i range
      refine ⟨(Option.some.inj is).symm,lead,?_⟩
      grind [copied,blank,lowerByte]
    · cases is
  · cases is

/-- The byte behind an odd `D0` is no letter and no separator, and it is taken as one more symbol. -/
theorem oddNext {d : UInt8} {s : Bytes} (whole : torn true (symbols (d :: s)) = false) :
    symbols (d :: s) = .other d :: symbols s ∧ torn false (symbols s) = false := by
  rw [symbols.eq_def] at whole ⊢
  dsimp only at whole ⊢
  split at whole
  · cases whole
  split at whole
  · cases whole
  rename_i plain latin
  rw [if_neg plain,if_neg latin]
  cases s with
  | nil => exact ⟨rfl,rfl⟩
  | cons e s =>
    dsimp only at whole ⊢
    cases is : pairLetter d e with
    | some lower => rw [is] at whole; cases whole
    | none =>
      rw [is] at whole
      exact ⟨rfl,whole⟩

theorem foldShown (prev : Bool) : (s : Bytes) → torn false (symbols s) = false → foldName prev s = shown prev (symbols s)
  | [], _ => rfl
  | c :: s, whole => by
    by_cases is : blank c = true
    · have sym : symbols (c :: s) = .sep :: symbols s := by
        rw [symbols.eq_def]
        simp only [is,if_true]
      rw [sym,torn,Bool.false_or] at whole
      rw [foldName.eq_def,sym,shown]
      simp only [is,if_true,foldShown true s whole]
    have plain : blank c = false := Bool.not_eq_true _ ▸ is
    by_cases latin : (65 ≤ c ∧ c ≤ 90) ∨ (97 ≤ c ∧ c ≤ 122)
    · have other : c ≠ 0xD0 := by rintro rfl; exact absurd latin (by decide)
      rw [symbolsOne latin,torn,Bool.false_or] at whole
      rw [foldByte prev plain other,symbolsOne latin,shown,foldShown false s whole,List.singleton_append]
    have same : c ≠ 0xD0 → lowerByte c = c := fun _ => if_neg fun range => latin (.inl range)
    cases s with
    | nil =>
      have sym : symbols [c] = [.other c] := by
        rw [symbols.eq_def]
        simp only [plain,latin,Bool.false_eq_true,if_false]
      have other : c ≠ 0xD0 := by
        rintro rfl
        rw [sym] at whole
        cases whole
      rw [foldByte prev plain other,sym,same other,foldName,shown,shown]
    | cons d s =>
      cases two : pairLetter c d with
      | some lower =>
        rw [symbolsTwo two,torn,Bool.false_or] at whole
        rw [symbolsTwo two,shown]
        by_cases lead : c = 0xD0
        · subst lead
          rw [foldTwo,pairSome two,foldShown false s whole]
        · obtain ⟨rfl,rfl,copy⟩ := pairOther lead two
          rw [foldByte prev plain lead,same lead,foldCopied false copy,foldShown false s whole]
          rfl
      | none =>
        have sym : symbols (c :: d :: s) = .other c :: symbols (d :: s) := by
          rw [symbols.eq_def]
          simp only [plain,latin,Bool.false_eq_true,if_false,two]
        rw [sym,torn,Bool.not_false,Bool.true_and] at whole
        rw [sym,shown]
        by_cases lead : c = 0xD0
        · subst lead
          rw [decide_eq_true rfl] at whole
          obtain ⟨next,rest⟩ := oddNext whole
          rw [foldTwo,pairNone two,next,shown,foldShown false s rest]
          rfl
        · rw [decide_eq_false lead] at whole
          rw [foldByte prev plain lead,same lead,foldShown false (d :: s) whole]
termination_by s => s.length

theorem normalShown {s : Bytes} (whole : torn false (symbols s) = false) : qeNormalizeName s = trimmed (symbols s) := by
  rw [qeNormalizeName,foldShown true s whole,trimmed]

/-! Spaces of what is shown. -/

def Plain : Sym → Prop
  | .sep => True
  | .letter l => l ≠ [] ∧ 32 ∉ l
  | .other b => b ≠ 32

theorem symbolsPlain (s : Bytes) : ∀ x ∈ symbols s, Plain x := by
  have notBlank {c : UInt8} (not : ¬ blank c = true) : c ≠ 32 := by rintro rfl; exact not rfl
  fun_induction symbols s with
  | case1 => exact List.forall_mem_nil _
  | case2 _ _ _ ih => exact List.forall_mem_cons.mpr ⟨trivial,ih⟩
  | case3 c s not latin ih =>
    refine List.forall_mem_cons.mpr ⟨⟨List.cons_ne_nil _ _,fun mem => ?_⟩,ih⟩
    have same := List.mem_singleton.mp mem
    grind [lowerByte]
  | case4 c not _ => exact List.forall_mem_cons.mpr ⟨notBlank not,List.forall_mem_nil _⟩
  | case5 c not _ d s lower is ih =>
    refine List.forall_mem_cons.mpr ⟨?_,ih⟩
    by_cases lead : c = 0xD0
    · subst lead
      rw [pairSome is]
      exact ⟨by grind [foldPair],by grind [pairLetter,foldPair]⟩
    · obtain ⟨rfl,rfl,copy⟩ := pairOther lead is
      refine ⟨List.cons_ne_nil _ _,fun mem => ?_⟩
      rcases List.mem_pair.mp mem with same | rfl
      · cases same
      · cases copy
  | case6 c not _ d s is ih => exact List.forall_mem_cons.mpr ⟨notBlank not,ih⟩

theorem singleCons {b : UInt8} (other : b ≠ 32) {s : Bytes} (h : ¬ [32,32] <:+: s) : ¬ [32,32] <:+: b :: s := by
  rw [List.infix_cons_iff]
  rintro (pre | inner)
  · exact other (List.cons_prefix_cons.mp pre).1.symm
  · exact h inner

theorem shownTidy (prev : Bool) {xs : List Sym} (plain : ∀ x ∈ xs, Plain x) :
    ¬ [32,32] <:+: shown prev xs ∧ (prev = true → (shown prev xs).head? ≠ some 32) := by
  induction xs generalizing prev with
  | nil => exact ⟨fun h => (by cases List.infix_nil.mp h),fun _ => (Option.some_ne_none 32).symm⟩
  | cons x xs ih =>
    obtain ⟨one,rest⟩ := List.forall_mem_cons.mp plain
    cases x with
    | sep =>
      obtain ⟨single,head⟩ := ih true rest
      rw [shown]
      cases prev with
      | true => exact ⟨single,fun _ => head rfl⟩
      | false =>
        refine ⟨?_,fun e => by cases e⟩
        rw [if_neg Bool.false_ne_true,List.infix_cons_iff]
        rintro (pre | inner)
        · obtain ⟨t,is⟩ := (List.cons_prefix_cons.mp pre).2
          exact head rfl (by rw [← is]; rfl)
        · exact single inner
    | letter l =>
      obtain ⟨some_,no⟩ := one
      rw [shown]
      have single : ¬ [32,32] <:+: l ++ shown false xs := by
        clear some_ plain
        induction l with
        | nil => exact (ih false rest).1
        | cons b l ihl =>
          rw [List.cons_append]
          exact singleCons (fun is => no (is ▸ List.mem_cons_self)) (ihl fun mem => no (List.mem_cons_of_mem _ mem))
      refine ⟨single,fun _ is => ?_⟩
      cases l with
      | nil => exact some_ rfl
      | cons b l => exact no (Option.some.inj is ▸ List.mem_cons_self)
    | other b => exact ⟨singleCons one (ih false rest).1,fun _ is => one (Option.some.inj is)⟩

theorem trimmedTidy (s : Bytes) : Tidy (trimmed (symbols s)) := by
  obtain ⟨single,head⟩ := shownTidy true (symbolsPlain s)
  obtain ⟨t,whole⟩ := List.rdropWhile_prefix (fun c : UInt8 => decide (c = 32)) (shown true (symbols s))
  refine ⟨fun is => ?_,fun is => ?_,fun inner => single (whole ▸ inner.trans (List.infix_append' [] _ _))⟩
  · refine head rfl ?_
    rw [← whole,List.head?_append]
    exact Option.or_eq_some_iff.mpr (.inl is)
  · obtain ⟨some_,last⟩ := List.mem_getLast?_eq_getLast is
    exact List.rdropWhile_last_not _ _ some_ (decide_eq_true last.symm)

/-! ### A text that is torn -/

/-- A letter, a separator or the end. -/
inductive Opens : Bytes → Prop
  | end_ : Opens []
  | blank {c : UInt8} (s : Bytes) : blank c = true → Opens (c :: s)
  | capital {x y : Bytes} (v : Bytes) : Cased x y → Opens (x ++ v)
  | small {x y : Bytes} (v : Bytes) : Cased x y → Opens (y ++ v)

theorem latinOpens {c : UInt8} (is : (65 ≤ c ∧ c ≤ 90) ∨ (97 ≤ c ∧ c ≤ 122)) (s : Bytes) : Opens (c :: s) := by
  rcases is with range | range
  · exact .capital s (.latin range)
  · have facts : (65 ≤ c - 32 ∧ c - 32 ≤ 90) ∧ c - 32 + 32 = c := by grind
    have small := Opens.small s (.latin facts.1)
    rwa [facts.2] at small

theorem pairOpens {c d : UInt8} {lower : Bytes} (is : pairLetter c d = some lower) (s : Bytes) : Opens (c :: d :: s) := by
  by_cases lead : c = 0xD0
  · subst lead
    have facts : (0x90 ≤ d ∧ d ≤ 0x9F) ∨ (0xA0 ≤ d ∧ d ≤ 0xAF) ∨ d = 0x81 ∨ ((0x90 ≤ d - 0x20 ∧ d - 0x20 ≤ 0x9F) ∧ d - 0x20 + 0x20 = d) := by
      have some_ : pairLetter 0xD0 d ≠ none := by rw [is]; exact nofun
      grind [pairLetter,foldPair]
    rcases facts with range | range | rfl | ⟨range,same⟩
    · exact .capital s (.first range)
    · exact .capital s (.second range)
    · exact .capital s .yo
    · have small := Opens.small s (.first range)
      rwa [same] at small
  · obtain ⟨_,rfl,_⟩ := pairOther lead is
    have facts : ((0xA0 ≤ d + 0x20 ∧ d + 0x20 ≤ 0xAF) ∧ d + 0x20 - 0x20 = d) ∨ d = 0x91 := by
      have some_ : pairLetter 0xD1 d ≠ none := by rw [is]; exact nofun
      grind [pairLetter,foldPair]
    rcases facts with ⟨range,same⟩ | rfl
    · have small := Opens.small s (.second range)
      rwa [same] at small
    · exact .small s .yo

theorem oddStop {d : UInt8} {s : Bytes} (h : torn true (symbols (d :: s)) = true) :
    Opens (d :: s) ∨ symbols (d :: s) = .other d :: symbols s ∧ torn false (symbols s) = true := by
  by_cases is : blank d = true
  · exact .inl (.blank s is)
  by_cases latin : (65 ≤ d ∧ d ≤ 90) ∨ (97 ≤ d ∧ d ≤ 122)
  · exact .inl (latinOpens latin s)
  cases s with
  | nil =>
    rw [symbols.eq_def] at h
    simp only [is,latin,Bool.false_eq_true,if_false] at h
    cases h
  | cons e s =>
    cases two : pairLetter d e with
    | some lower => exact .inl (pairOpens two s)
    | none =>
      have sym : symbols (d :: e :: s) = .other d :: symbols (e :: s) := by
        rw [symbols.eq_def]
        simp only [is,latin,Bool.false_eq_true,if_false,two]
      rw [sym] at h
      exact .inr ⟨sym,h⟩

/-- The loop comes to a `D0` that takes a letter's first byte, a separator or nothing with it. -/
theorem tornAt (prev : Bool) : (s : Bytes) → torn false (symbols s) = true →
    ∃ u r out q, s = u ++ 0xD0 :: r ∧ (∀ t, foldName prev (u ++ t) = out ++ foldName q t) ∧ Opens r
  | [], h => nomatch h
  | c :: s, h => by
    by_cases is : blank c = true
    · have sym : symbols (c :: s) = .sep :: symbols s := by
        rw [symbols.eq_def]
        simp only [is,if_true]
      rw [sym,torn,Bool.false_or] at h
      obtain ⟨u,r,out,q,rfl,run,opens⟩ := tornAt true s h
      refine ⟨c :: u,r,if prev then out else 32 :: out,q,rfl,fun t => ?_,opens⟩
      rw [List.cons_append,foldName.eq_def]
      simp only [is,if_true,run]
      cases prev <;> rfl
    have plain : blank c = false := Bool.not_eq_true _ ▸ is
    -- a single byte, and what is found behind it
    have single (other : c ≠ 0xD0) (rest : torn false (symbols s) = true) :
        ∃ u r out q, c :: s = u ++ 0xD0 :: r ∧ (∀ t, foldName prev (u ++ t) = out ++ foldName q t) ∧ Opens r := by
      obtain ⟨u,r,out,q,split,run,opens⟩ := tornAt false s rest
      exact ⟨c :: u,r,lowerByte c :: out,q,congrArg (c :: ·) split,fun t => by rw [List.cons_append,foldByte prev plain other,run]; rfl,opens⟩
    by_cases latin : (65 ≤ c ∧ c ≤ 90) ∨ (97 ≤ c ∧ c ≤ 122)
    · rw [symbolsOne latin,torn,Bool.false_or] at h
      exact single (by rintro rfl; exact absurd latin (by decide)) h
    cases s with
    | nil =>
      have sym : symbols [c] = [.other c] := by
        rw [symbols.eq_def]
        simp only [plain,latin,Bool.false_eq_true,if_false]
      rw [sym,torn,torn,Bool.not_false,Bool.true_and,decide_eq_true_eq] at h
      exact ⟨[],[],[],prev,by rw [h]; rfl,fun _ => rfl,.end_⟩
    | cons d s =>
      -- two bytes, and what is found behind them
      have double {o : Bytes} (run₂ : ∀ t, foldName prev (c :: d :: t) = o ++ foldName false t) (rest : torn false (symbols s) = true) :
          ∃ u r out q, c :: d :: s = u ++ 0xD0 :: r ∧ (∀ t, foldName prev (u ++ t) = out ++ foldName q t) ∧ Opens r := by
        obtain ⟨u,r,out,q,rfl,run,opens⟩ := tornAt false s rest
        exact ⟨c :: d :: u,r,o ++ out,q,rfl,fun t => by rw [List.cons_append,List.cons_append,run₂,run,List.append_assoc],opens⟩
      cases two : pairLetter c d with
      | some lower =>
        rw [symbolsTwo two,torn,Bool.false_or] at h
        by_cases lead : c = 0xD0
        · subst lead
          exact double (foldTwo prev d) h
        · obtain ⟨_,rfl,copy⟩ := pairOther lead two
          exact double (o := [0xD1,d]) (fun t => by rw [foldByte prev plain lead,foldCopied false copy]; rfl) h
      | none =>
        have sym : symbols (c :: d :: s) = .other c :: symbols (d :: s) := by
          rw [symbols.eq_def]
          simp only [plain,latin,Bool.false_eq_true,if_false,two]
        rw [sym,torn,Bool.not_false,Bool.true_and] at h
        by_cases lead : c = 0xD0
        · subst lead
          rw [decide_eq_true rfl] at h
          rcases oddStop h with opens | ⟨_,rest⟩
          · exact ⟨[],d :: s,[],prev,rfl,fun _ => rfl,opens⟩
          · exact double (foldTwo prev d) rest
        · rw [decide_eq_false lead] at h
          exact single lead h
termination_by s => s.length

/-- The part up to a byte that is no space stays. -/
theorem trimKeeps (A R : Bytes) {b : UInt8} (other : b ≠ 32) : ∃ R', (A ++ b :: R).rdropWhile (· = 32) = A ++ b :: R' := by
  induction R using List.reverseRecOn with
  | nil => exact ⟨[],List.rdropWhile_concat_neg _ _ _ (by simpa using other)⟩
  | append_singleton R x ih =>
    rw [← List.cons_append,← List.append_assoc]
    by_cases is : x = 32
    · rw [List.rdropWhile_concat_pos (fun c : UInt8 => decide (c = 32)) _ x (decide_eq_true is)]
      exact ih
    · rw [List.rdropWhile_concat_neg (fun c : UInt8 => decide (c = 32)) _ x (by simpa using is),List.append_assoc]
      exact ⟨R ++ [x],rfl⟩

theorem foldDiffers {s t : Bytes} {A R Q : Bytes} {b c : UInt8} (first : foldName true s = A ++ b :: R) (second : foldName true t = A ++ c :: Q)
    (b_ : b ≠ 32) (c_ : c ≠ 32) (ne : b ≠ c) : qeNormalizeName s ≠ qeNormalizeName t := by
  obtain ⟨R',keeps⟩ := trimKeeps A R b_
  obtain ⟨Q',keeps'⟩ := trimKeeps A Q c_
  rw [qeNormalizeName,qeNormalizeName,first,second,keeps,keeps']
  exact fun same => ne (List.cons.inj (List.append_cancel_left same)).1

/-- Behind a `D0` that takes its first byte, a letter keeps its case. -/
theorem casedDiffers {x y : Bytes} (h : Cased x y) : ∃ A b c, b ≠ 32 ∧ c ≠ 32 ∧ b ≠ c ∧ ∀ q v, ∃ R Q,
    foldName q (0xD0 :: (x ++ v)) = A ++ b :: R ∧ foldName q (0xD0 :: (y ++ v)) = A ++ c :: Q := by
  cases h with
  | @latin c range =>
    have facts : foldPair c = [0xD0,c] ∧ foldPair (c + 32) = [0xD0,c + 32] ∧ c ≠ 32 ∧ c + 32 ≠ 32 ∧ c ≠ c + 32 := by
      grind [foldPair]
    refine ⟨[0xD0],c,c + 32,facts.2.2.1,facts.2.2.2.1,facts.2.2.2.2,fun q v => ⟨foldName false v,foldName false v,?_,?_⟩⟩
    · rw [List.singleton_append,foldTwo,facts.1]; rfl
    · rw [List.singleton_append,foldTwo,facts.2.1]; rfl
  | @first d range =>
    have facts : copied d = true ∧ copied (d + 0x20) = true ∧ d ≠ 32 ∧ d + 0x20 ≠ 32 ∧ d ≠ d + 0x20 := by
      grind [copied,blank,lowerByte]
    refine ⟨[0xD0,0xD0],d,d + 0x20,facts.2.2.1,facts.2.2.2.1,facts.2.2.2.2,fun q v => ⟨foldName false v,foldName false v,?_,?_⟩⟩
    · rw [List.cons_append,foldTwo,List.singleton_append,foldCopied false facts.1]; rfl
    · rw [List.cons_append,foldTwo,List.singleton_append,foldCopied false facts.2.1]; rfl
  | @second d range =>
    refine ⟨[0xD0],0xD0,0xD1,by decide,by decide,by decide,fun q v => ⟨foldName false (d :: v),foldName false ((d - 0x20) :: v),?_,?_⟩⟩
    · rw [List.cons_append,foldTwo]; rfl
    · rw [List.cons_append,foldTwo]; rfl
  | yo =>
    refine ⟨[0xD0],0xD0,0xD1,by decide,by decide,by decide,fun q v => ⟨foldName false (0x81 :: v),foldName false (0x91 :: v),?_,?_⟩⟩
    · rw [List.cons_append,foldTwo]; rfl
    · rw [List.cons_append,foldTwo]; rfl

/-- A torn text has two texts like it that are normalized apart. -/
theorem tornApart {s : Bytes} (h : torn false (symbols s) = true) :
    ∃ t t', Alike s t ∧ Alike s t' ∧ qeNormalizeName t ≠ qeNormalizeName t' := by
  obtain ⟨u,r,out,q,rfl,run,opens⟩ := tornAt true s h
  have tab : Blanks [9] := List.forall_mem_singleton.mpr rfl
  have line : Blanks [10] := List.forall_mem_singleton.mpr rfl
  -- the `D0` takes a tab or a line feed with it
  have blanks (v : Bytes) : qeNormalizeName (u ++ [0xD0] ++ [9] ++ v) ≠ qeNormalizeName (u ++ [0xD0] ++ [10] ++ v) := by
    refine foldDiffers (A := out ++ [0xD0]) (R := foldName false v) (Q := foldName false v) (b := 9) (c := 10) ?_ ?_ (by decide) (by decide)
      (by decide)
    · rw [List.append_assoc,List.append_assoc,run,List.append_assoc]
      exact congrArg (out ++ ·) (foldTwo q 9 v)
    · rw [List.append_assoc,List.append_assoc,run,List.append_assoc]
      exact congrArg (out ++ ·) (foldTwo q 10 v)
  have letters {x y : Bytes} (v : Bytes) (both : Cased x y) :
      qeNormalizeName (u ++ [0xD0] ++ x ++ v) ≠ qeNormalizeName (u ++ [0xD0] ++ y ++ v) := by
    obtain ⟨A,b,c,b_,c_,ne,differ⟩ := casedDiffers both
    obtain ⟨R,Q,first,second⟩ := differ q v
    refine foldDiffers (A := out ++ A) (R := R) (Q := Q) ?_ ?_ b_ c_ ne
    · rw [List.append_assoc,List.append_assoc,run,List.append_assoc]
      exact congrArg (out ++ ·) first
    · rw [List.append_assoc,List.append_assoc,run,List.append_assoc]
      exact congrArg (out ++ ·) second
  cases opens with
  | end_ =>
    have from_ {w : Bytes} (h : Blanks w) : Varied (u ++ [0xD0]) (u ++ [0xD0] ++ w ++ []) := by
      have step := Varied.blanks (u ++ [0xD0]) [] (List.forall_mem_nil _) h (fun _ => .inr rfl) fun _ => .inr rfl
      rwa [List.append_nil,List.append_nil] at step
    exact ⟨_,_,.rel _ _ (from_ tab),.rel _ _ (from_ line),blanks []⟩
  | @blank c v is =>
    have one : Blanks [c] := List.forall_mem_singleton.mpr is
    have whole : u ++ [0xD0] ++ [c] ++ v = u ++ 0xD0 :: c :: v := by simp only [List.append_assoc,List.cons_append,List.nil_append]
    refine ⟨_,_,.rel _ _ ?_,.rel _ _ ?_,blanks v⟩
    · exact whole ▸ Varied.blanks (u ++ [0xD0]) v one tab nofun nofun
    · exact whole ▸ Varied.blanks (u ++ [0xD0]) v one line nofun nofun
  | @capital x y v both =>
    have whole : u ++ [0xD0] ++ x ++ v = u ++ 0xD0 :: (x ++ v) := by simp only [List.append_assoc,List.cons_append,List.nil_append]
    refine ⟨_,_,?_,.rel _ _ ?_,letters v both⟩
    · exact whole ▸ .refl _
    · exact whole ▸ Varied.letter (u ++ [0xD0]) v both
  | @small x y v both =>
    have whole : u ++ [0xD0] ++ y ++ v = u ++ 0xD0 :: (y ++ v) := by simp only [List.append_assoc,List.cons_append,List.nil_append]
    refine ⟨_,_,.symm _ _ (.rel _ _ ?_),?_,letters v both⟩
    · exact whole ▸ Varied.letter (u ++ [0xD0]) v both
    · exact whole ▸ .refl _

/-- The normal form is one exactly for the texts that are not torn. -/
theorem normalIff (s : Bytes) : Normal s ↔ torn false (symbols s) = false := by
  constructor
  · intro h
    rw [← Bool.not_eq_true]
    intro bad
    obtain ⟨t,t',first,second,apart⟩ := tornApart bad
    exact apart ((h.alike t first).trans (h.alike t' second).symm)
  · intro whole
    refine ⟨normalizeTwice s,normalShown whole ▸ trimmedTidy s,fun t same => ?_⟩
    obtain ⟨still,as⟩ := alikeSame same
    rw [normalShown (still ▸ whole),normalShown whole,as]

/-! UTF-8 is never torn. -/

theorem tornByte {c : UInt8} (d0 : c ≠ 0xD0) (d1 : c ≠ 0xD1) (s : Bytes) :
    torn false (symbols (c :: s)) = torn false (symbols s) ∧ (0x80 ≤ c → torn true (symbols (c :: s)) = torn false (symbols s)) := by
  have none_ (d : UInt8) : pairLetter c d = none := by rw [pairLetter,if_neg d0,if_neg d1]
  by_cases is : blank c = true
  · rw [symbols.eq_def]
    simp only [is,if_true,torn,Bool.false_or,true_and]
    intro high
    grind [blank]
  by_cases latin : (65 ≤ c ∧ c ≤ 90) ∨ (97 ≤ c ∧ c ≤ 122)
  · rw [symbolsOne latin]
    exact ⟨rfl,fun high => absurd latin (by grind)⟩
  have sym : symbols (c :: s) = .other c :: symbols s := by
    rw [symbols.eq_def]
    cases s with
    | nil => simp only [is,latin,Bool.false_eq_true,if_false]; rfl
    | cons d s => simp only [is,latin,Bool.false_eq_true,if_false,none_]
  rw [sym,torn,torn,decide_eq_false d0]
  exact ⟨rfl,fun _ => rfl⟩

theorem everyByte {P : UInt8 → Prop} (all : ∀ n < 256, P (UInt8.ofNat n)) (c : UInt8) : P c := by
  have one := all c.toNat (UInt8.toNat_lt c)
  rwa [UInt8.ofNat_toNat] at one

theorem tornTail {d : UInt8} (is : Utf8.tail d = true) (s : Bytes) :
    torn false (symbols (d :: s)) = torn false (symbols s) ∧ torn true (symbols (d :: s)) = torn false (symbols s) := by
  have facts : d ≠ 0xD0 ∧ d ≠ 0xD1 ∧ 0x80 ≤ d := by
    revert is
    exact everyByte (P := fun d => Utf8.tail d = true → d ≠ 0xD0 ∧ d ≠ 0xD1 ∧ 0x80 ≤ d) (by decide +kernel) d
  obtain ⟨same,odd⟩ := tornByte facts.1 facts.2.1 s
  exact ⟨same,odd facts.2.2⟩

theorem tornPair (c : UInt8) {d : UInt8} (is : Utf8.tail d = true) (s : Bytes) : torn false (symbols (c :: d :: s)) = torn false (symbols s) := by
  by_cases lead : c = 0xD0 ∨ c = 0xD1
  · cases two : pairLetter c d with
    | some lower => rw [symbolsTwo two]; rfl
    | none =>
      have plain : blank c = false ∧ ¬ ((65 ≤ c ∧ c ≤ 90) ∨ (97 ≤ c ∧ c ≤ 122)) := by
        rcases lead with rfl | rfl <;> decide
      have sym : symbols (c :: d :: s) = .other c :: symbols (d :: s) := by
        rw [symbols.eq_def]
        simp only [plain.1,plain.2,Bool.false_eq_true,if_false,two]
      rw [sym,torn]
      cases !false && decide (c = 0xD0)
      · exact (tornTail is s).1
      · exact (tornTail is s).2
  · rw [not_or] at lead
    exact (tornByte lead.1 lead.2 _).1.trans (tornTail is s).1

theorem tornChar (c : Char) (s : Bytes) : torn false (symbols (String.utf8EncodeChar c ++ s)) = torn false (symbols s) := by
  have tails {t : Nat} (h : t < 64) := tornTail (Utf8.tailByte h)
  rcases Utf8.encoded c with ⟨low,eq⟩ | ⟨h,t,hh,ht,_,_,eq⟩ | ⟨h,t,u,hh,ht,hu,_,_,eq⟩ | ⟨h,t,u,v,hh,ht,hu,hv,_,_,eq⟩ <;> rw [eq]
  · have all : ∀ n < 0x80, UInt8.ofNat n ≠ 0xD0 ∧ UInt8.ofNat n ≠ 0xD1 := by decide
    exact (tornByte (all _ low).1 (all _ low).2 s).1
  · exact tornPair _ (Utf8.tailByte ht) s
  · exact (tornPair _ (Utf8.tailByte ht) _).trans (tails hu s).1
  · exact (tornPair _ (Utf8.tailByte ht) _).trans ((tails hu _).1.trans (tails hv s).1)

theorem utf8Normal {s : Bytes} (wf : Utf8.WellFormed s) : Normal s := by
  obtain ⟨cs,rfl⟩ := wf
  refine (normalIff _).mpr ?_
  induction cs with
  | nil => rfl
  | cons c cs ih => rw [List.flatMap_cons,tornChar,ih]

/-- `D0` and two spaces: the first of them is taken for its second byte. -/
theorem spaceDoubled : ¬ ∀ s, Normal s := by
  intro all
  have single := (all [0xD0,0x20,0x20,0x61]).tidy.2.2
  revert single
  decide

end Napastak.NormName
