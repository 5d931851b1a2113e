import Mathlib.Data.List.Perm.Basic
import Mathlib.Data.List.Dedup

/-! The element that is left of a list when each one in turn replaces the element kept so far if it beats it,
perhaps without elements that have been before. Beating need not be transitive: whatever the order of the list,
the same element is left just when it beats all others. -/
namespace Napastak.Champion

section
variable {α : Type} [DecidableEq α]

/-- The elements that have not been before. -/
def fresh (seen : List α) : List α → List α
  | [] => []
  | x :: xs => if x ∈ seen then fresh seen xs else x :: fresh (seen ++ [x]) xs

/-- What comes up: every element, or each one once. -/
def rounds (once : Bool) (xs : List α) : List α := if once then fresh [] xs else xs

/-! ### Elements once -/

theorem freshAppend (xs ys seen : List α) : fresh seen (xs ++ ys) = fresh seen xs ++ fresh (seen ++ fresh seen xs) ys := by
  induction xs generalizing seen with
  | nil => simp [fresh]
  | cons x xs ih =>
    rw [List.cons_append,fresh,fresh]
    split
    · exact ih seen
    · rw [ih,List.cons_append,List.append_assoc]
      rfl

theorem memFresh {xs seen : List α} {x : α} : x ∈ fresh seen xs ↔ x ∈ xs ∧ x ∉ seen := by
  induction xs generalizing seen with
  | nil => simp [fresh]
  | cons y xs ih =>
    rw [fresh]
    split
    · rename_i old
      rw [ih,List.mem_cons]
      exact ⟨fun h => ⟨.inr h.1,h.2⟩,fun h => ⟨h.1.resolve_left fun same => h.2 (same ▸ old),h.2⟩⟩
    · rename_i new
      rw [List.mem_cons,ih,List.mem_cons,List.mem_append,List.mem_singleton]
      constructor
      · rintro (rfl | ⟨mem,out⟩)
        · exact ⟨.inl rfl,new⟩
        · exact ⟨.inr mem,fun old => out (.inl old)⟩
      · rintro ⟨rfl | mem,out⟩
        · exact .inl rfl
        · by_cases same : x = y
          · exact .inl same
          · exact .inr ⟨mem,fun or => or.elim out same⟩

theorem freshNodup (xs seen : List α) : (fresh seen xs).Nodup := by
  induction xs generalizing seen with
  | nil => exact List.nodup_nil
  | cons x xs ih =>
    rw [fresh]
    split
    · exact ih seen
    · exact List.nodup_cons.mpr ⟨fun mem => (memFresh.mp mem).2 (List.mem_append_right _ List.mem_cons_self),ih _⟩

theorem freshLength (xs : List α) : (fresh [] xs).length = xs.dedup.length := by
  refine ((List.perm_ext_iff_of_nodup (freshNodup xs []) (List.nodup_dedup xs)).mpr fun x => ?_).length_eq
  rw [memFresh,List.mem_dedup]
  exact ⟨fun h => h.1,fun h => ⟨h,List.not_mem_nil⟩⟩

theorem memRounds {once : Bool} {xs : List α} {x : α} : x ∈ rounds once xs ↔ x ∈ xs := by
  rw [rounds]
  split
  · rw [memFresh]
    exact ⟨fun h => h.1,fun h => ⟨h,List.not_mem_nil⟩⟩
  · rfl

theorem roundsLength {once : Bool} {xs ys : List α} (perm : ys.Perm xs) : (rounds once ys).length = (rounds once xs).length := by
  rw [rounds,rounds]
  split
  · rw [freshLength,freshLength]
    exact perm.dedup.length_eq
  · exact perm.length_eq

end

/-! ### What is left -/

section
variable {α : Type}

def champ (beats : α → α → Bool) (m : Option α) (xs : List α) : Option α :=
  xs.foldl (fun m t => match m with
    | none => some t
    | some m => if beats t m then some t else some m) m

/-- One element beats all others. -/
def Strict (beats : α → α → Bool) (xs : List α) (r : α) : Prop := r ∈ xs ∧ ∀ y ∈ xs, y ≠ r → beats r y = true

variable {beats : α → α → Bool}

theorem champSome (m : α) (xs : List α) : ∃ r, champ beats (some m) xs = some r ∧ (r = m ∨ r ∈ xs) := by
  induction xs generalizing m with
  | nil => exact ⟨m,rfl,.inl rfl⟩
  | cons t xs ih =>
    by_cases win : beats t m = true
    · obtain ⟨r,is,mem⟩ := ih t
      refine ⟨r,?_,.inr (mem.elim (fun same => same ▸ List.mem_cons_self) (List.mem_cons_of_mem _))⟩
      rw [← is,champ,List.foldl_cons]
      simp only [win,if_true]
      rfl
    · obtain ⟨r,is,mem⟩ := ih m
      refine ⟨r,?_,mem.imp_right (List.mem_cons_of_mem _)⟩
      rw [← is,champ,List.foldl_cons]
      simp only [win,if_false,Bool.false_eq_true]
      rfl

theorem champNone {xs : List α} : champ beats none xs = none ↔ xs = [] := by
  cases xs with
  | nil => exact ⟨fun _ => rfl,fun _ => rfl⟩
  | cons t xs =>
    obtain ⟨r,is,_⟩ := @champSome _ beats t xs
    have first : champ beats none (t :: xs) = champ beats (some t) xs := rfl
    rw [first,is]
    exact ⟨nofun,nofun⟩

theorem champMem {xs : List α} {r : α} (is : champ beats none xs = some r) : r ∈ xs := by
  cases xs with
  | nil => cases is
  | cons t xs =>
    obtain ⟨r',is',mem⟩ := @champSome _ beats t xs
    have first : champ beats none (t :: xs) = champ beats (some t) xs := rfl
    rw [first,is'] at is
    cases is
    exact mem.elim (fun same => same ▸ List.mem_cons_self) (List.mem_cons_of_mem _)

theorem champStays {m : α} {xs : List α} (stays : ∀ y ∈ xs, beats y m = false) : champ beats (some m) xs = some m := by
  induction xs with
  | nil => rfl
  | cons t xs ih =>
    rw [champ,List.foldl_cons]
    simp only [stays t List.mem_cons_self,Bool.false_eq_true,if_false]
    exact ih fun y mem => stays y (List.mem_cons_of_mem _ mem)

theorem champAppend (m : Option α) (xs ys : List α) : champ beats m (xs ++ ys) = champ beats (champ beats m xs) ys := List.foldl_append

theorem irreflOf (asymm : ∀ x y, beats x y = true → beats y x = false) (x : α) : beats x x = false := by
  cases own : beats x x with
  | false => rfl
  | true =>
    have := asymm x x own
    rw [own] at this
    exact this

end

section
variable {α : Type} [DecidableEq α] {beats : α → α → Bool}

theorem champFinds (asymm : ∀ x y, beats x y = true → beats y x = false) {r m : α} {xs : List α} (mem : r ∈ xs)
    (strict : ∀ y ∈ xs, y ≠ r → beats r y = true) (first : m ≠ r → beats r m = true) : champ beats (some m) xs = some r := by
  have irrefl := irreflOf asymm
  have stays : ∀ {ys : List α}, (∀ y ∈ ys, y ≠ r → beats r y = true) → ∀ y ∈ ys, beats y r = false := fun all y mem => by
    by_cases same : y = r
    · rw [same]
      exact irrefl r
    · exact asymm r y (all y mem same)
  induction xs generalizing m with
  | nil => cases mem
  | cons t xs ih =>
    have tail : ∀ y ∈ xs, y ≠ r → beats r y = true := fun y mem => strict y (List.mem_cons_of_mem _ mem)
    rw [champ,List.foldl_cons]
    by_cases same : t = r
    · have next : (if beats t m then some t else some m) = some r := by
        by_cases own : m = r
        · rw [own,same,irrefl,if_neg Bool.false_ne_true]
        · rw [same,first own,if_pos rfl]
      dsimp only
      rw [next]
      exact champStays (stays tail)
    · have mem' : r ∈ xs := (List.mem_cons.mp mem).resolve_left (Ne.symm same)
      dsimp only
      split
      · exact ih mem' tail fun _ => strict t List.mem_cons_self same
      · exact ih mem' tail first

/-- An element that beats all others is left, whatever the order. -/
theorem strictLeft (asymm : ∀ x y, beats x y = true → beats y x = false) (once : Bool) {xs : List α} {r : α} (strict : Strict beats xs r) :
    champ beats none (rounds once xs) = some r := by
  obtain ⟨mem,all⟩ := strict
  have mem' : r ∈ rounds once xs := memRounds.mpr mem
  have all' : ∀ y ∈ rounds once xs, y ≠ r → beats r y = true := fun y inside => all y (memRounds.mp inside)
  cases is : rounds once xs with
  | nil =>
    rw [is] at mem'
    cases mem'
  | cons t ts =>
    rw [is] at mem' all'
    show champ beats (some t) ts = some r
    rcases List.mem_cons.mp mem' with rfl | inside
    · refine champStays fun y inside => ?_
      by_cases same : y = r
      · rw [same]
        exact irreflOf asymm r
      · exact asymm r y (all' y (List.mem_cons_of_mem _ inside) same)
    · exact champFinds asymm inside (fun y inside => all' y (List.mem_cons_of_mem _ inside)) fun ne => all' t List.mem_cons_self ne

/-- An element that is left in every order beats all others. -/
theorem leftStrict (asymm : ∀ x y, beats x y = true → beats y x = false) {once : Bool} {xs : List α} {r : α}
    (always : ∀ ys, ys.Perm xs → champ beats none (rounds once ys) = some r) : Strict beats xs r := by
  refine ⟨memRounds.mp (champMem (always xs (List.Perm.refl xs))),fun y mem ne => ?_⟩
  by_contra loses
  -- all of `y` come first, then all of `r`, then the others
  have perm : (xs.filter (· = y) ++ ((xs.filter fun x => ¬x = y).filter (· = r) ++ (xs.filter fun x => ¬x = y).filter fun x => ¬x = r)).Perm xs :=
    ((List.Perm.refl _).append (by simpa using List.filter_append_perm (· = r) (xs.filter fun x => ¬x = y))).trans
      (by simpa using List.filter_append_perm (· = y) xs)
  have left := always _ perm
  obtain ⟨n,ys⟩ : ∃ n, xs.filter (· = y) = y :: List.replicate n y := by
    have all : ∀ x ∈ xs.filter (· = y), x = y := fun x inside => of_decide_eq_true (List.mem_filter.mp inside).2
    have some_ : xs.filter (· = y) ≠ [] := List.ne_nil_of_mem (List.mem_filter.mpr ⟨mem,decide_eq_true rfl⟩)
    obtain ⟨x,rest,is⟩ := List.exists_cons_of_ne_nil some_
    rw [is] at all
    refine ⟨rest.length,?_⟩
    rw [is,all x List.mem_cons_self,List.eq_replicate_iff.mpr ⟨rfl,fun z inside => all z (List.mem_cons_of_mem _ inside)⟩,List.length_replicate]
  -- the rounds begin with `y`, go on with `y` and `r` only, and end without `r`
  obtain ⟨mid,last,is,midIs,lastIs⟩ : ∃ mid last, rounds once (xs.filter (· = y) ++ ((xs.filter fun x => ¬x = y).filter (· = r) ++
      (xs.filter fun x => ¬x = y).filter fun x => ¬x = r)) = y :: (mid ++ last) ∧ (∀ x ∈ mid, x = y ∨ x = r) ∧ ∀ x ∈ last, x ≠ r := by
    have rs : ∀ x ∈ (xs.filter fun x => ¬x = y).filter (· = r), x = r := fun x inside => of_decide_eq_true (List.mem_filter.mp inside).2
    have others : ∀ x ∈ (xs.filter fun x => ¬x = y).filter (fun x => ¬x = r), x ≠ r := fun x inside => of_decide_eq_true (List.mem_filter.mp inside).2
    generalize (xs.filter fun x => ¬x = y).filter (· = r) = second at *
    generalize (xs.filter fun x => ¬x = y).filter (fun x => ¬x = r) = third at *
    rw [ys,List.cons_append,rounds]
    split
    · rw [fresh,if_neg List.not_mem_nil,← List.append_assoc,freshAppend]
      refine ⟨_,_,rfl,fun x inside => ?_,fun x inside => others x (memFresh.mp inside).1⟩
      rcases List.mem_append.mp (memFresh.mp inside).1 with old | new
      · exact .inl (List.eq_of_mem_replicate old)
      · exact .inr (rs x new)
    · refine ⟨List.replicate n y ++ second,third,by rw [List.append_assoc],fun x inside => ?_,others⟩
      rcases List.mem_append.mp inside with old | new
      · exact .inl (List.eq_of_mem_replicate old)
      · exact .inr (rs x new)
  have start : champ beats none (y :: (mid ++ last)) = champ beats (champ beats (some y) mid) last := champAppend (some y) mid last
  rw [is,start,champStays fun x inside => ?_] at left
  · obtain ⟨r',is',mem'⟩ := @champSome _ beats y last
    rw [is'] at left
    cases left
    exact mem'.elim (fun same => ne same.symm) fun inside => lastIs r inside rfl
  · rcases midIs x inside with rfl | rfl
    · exact irreflOf asymm x
    · exact Bool.not_eq_true _ ▸ loses

end

/-- A reordering of what a map keeps comes from one of the list. -/
theorem liftPerm {α β : Type} (f : α → Option β) {xs : List α} {ys zs : List β} (perm : ys.Perm zs) (is : xs.filterMap f = zs) :
    ∃ xs' : List α, xs'.Perm xs ∧ xs'.filterMap f = ys := by
  have back : ∀ {ys zs : List β}, zs.Perm ys → ∀ {xs : List α}, xs.filterMap f = zs → ∃ xs' : List α, xs'.Perm xs ∧ xs'.filterMap f = ys := by
    intro ys zs perm
    induction perm with
    | nil => exact fun {xs} is => ⟨xs,List.Perm.refl _,is⟩
    | cons z _ ih =>
      intro xs is
      obtain ⟨pre,a,post,rfl,none_,value,rest⟩ := List.filterMap_eq_cons_iff.mp is
      obtain ⟨post',perm',is'⟩ := ih rest
      refine ⟨pre ++ a :: post',(List.Perm.refl pre).append (perm'.cons a),?_⟩
      rw [List.filterMap_append,List.filterMap_cons_some value,is',List.filterMap_eq_nil_iff.mpr none_]
      rfl
    | swap z w zs =>
      intro xs is
      obtain ⟨pre,a,post,rfl,none_,value,rest⟩ := List.filterMap_eq_cons_iff.mp is
      obtain ⟨pre',b,post',rfl,none_',value',rest'⟩ := List.filterMap_eq_cons_iff.mp rest
      refine ⟨b :: a :: (pre ++ pre' ++ post'),?_,?_⟩
      · have first : (pre ++ a :: (pre' ++ b :: post')).Perm (a :: (pre ++ (pre' ++ b :: post'))) := List.perm_middle
        have second : (pre ++ (pre' ++ b :: post')).Perm (b :: (pre ++ pre' ++ post')) := by
          rw [← List.append_assoc]
          exact List.perm_middle
        exact ((List.Perm.swap a b _).trans (second.symm.cons a)).trans first.symm
      · rw [List.filterMap_cons_some value',List.filterMap_cons_some value,List.filterMap_append,List.filterMap_append,
          List.filterMap_eq_nil_iff.mpr none_,List.filterMap_eq_nil_iff.mpr none_',rest']
        rfl
    | trans _ _ ih ih' =>
      intro xs is
      obtain ⟨xs',perm',is'⟩ := ih is
      obtain ⟨xs'',perm'',is''⟩ := ih' is'
      exact ⟨xs'',perm''.trans perm',is''⟩
  exact back perm.symm is

end Napastak.Champion
