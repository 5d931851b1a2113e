import Mathlib.Data.List.DropRight

/-! Insertion from the back by a comparison that need not be an order, and when the result is sorted. -/
namespace Napastak.InsertSort

variable {α : Type} (gt : α → α → Bool)

/-- `x` behind the last element that is not greater. -/
def insert (s : List α) (x : α) : List α := s.rdropWhile (gt · x) ++ x :: s.rtakeWhile (gt · x)

def sort (l : List α) : List α := l.foldl (insert gt) []

theorem sortConcat (l : List α) (x : α) : sort gt (l ++ [x]) = insert gt (sort gt l) x := by
  rw [sort,List.foldl_append]
  rfl

theorem insertPerm (s : List α) (x : α) : (insert gt s x).Perm (x :: s) := by
  have whole := List.rdropWhile_append_rtakeWhile (p := (gt · x)) (l := s)
  calc
    (insert gt s x).Perm (x :: (s.rdropWhile (gt · x) ++ s.rtakeWhile (gt · x))) := List.perm_middle
    _ = x :: s := by rw [whole]

theorem insertSublist (s : List α) (x : α) : s.Sublist (insert gt s x) := by
  have whole := List.rdropWhile_append_rtakeWhile (p := (gt · x)) (l := s)
  conv => lhs; rw [← whole]
  exact (List.Sublist.refl _).append (List.sublist_cons_self x _)

theorem sortPerm (l : List α) : (sort gt l).Perm l := by
  induction l using List.reverseRecOn with
  | nil => exact .refl _
  | append_singleton l x ih =>
    rw [sortConcat]
    exact (insertPerm gt _ x).trans ((ih.cons x).trans (List.perm_append_singleton x l).symm)

/-- What is compared may be a part of what is sorted. -/
theorem insertMap {β : Type} (f : β → α) (s : List β) (x : β) :
    (insert (fun a b => gt (f a) (f b)) s x).map f = insert gt (s.map f) (f x) := by
  rw [insert,insert,List.map_append,List.map_cons]
  simp only [List.rdropWhile,List.rtakeWhile,← List.map_reverse,List.dropWhile_map,List.takeWhile_map]
  rfl

theorem sortMap {β : Type} (f : β → α) (l : List β) :
    (sort (fun a b => gt (f a) (f b)) l).map f = sort gt (l.map f) := by
  induction l using List.reverseRecOn with
  | nil => rfl
  | append_singleton l x ih => rw [sortConcat,insertMap,ih,List.map_append,List.map_singleton,sortConcat]

/-- Nothing moves where nothing is greater. -/
theorem sortStill {l : List α} (still : ∀ a b, gt a b = false) : sort gt l = l := by
  induction l using List.reverseRecOn with
  | nil => rfl
  | append_singleton l x ih =>
    have never (y : α) : ¬gt y x = true := by simp [still]
    rw [sortConcat,ih,insert,List.rdropWhile_eq_self_iff.2 fun ne => never _]
    have none_ : l.rtakeWhile (gt · x) = [] := List.rtakeWhile_eq_nil_iff.2 fun ne => never _
    rw [none_]

/-- Elements that do not overtake each other stay in their order. -/
theorem sortKept {same : α → α → Prop} (stays : ∀ a b, same a b → gt a b = false) {r : α → α → Prop} {l : List α}
    (kept : l.Pairwise fun a b => same a b → r a b) (sym : ∀ a b, same a b → same b a) :
    (sort gt l).Pairwise fun a b => same a b → r a b := by
  induction l using List.reverseRecOn with
  | nil => exact .nil
  | append_singleton l x ih =>
    obtain ⟨keptL,-,last⟩ := List.pairwise_append.1 kept
    have earlier {a : α} (mem : a ∈ sort gt l) (sameX : same a x) : r a x :=
      last a ((sortPerm gt l).mem_iff.1 mem) x (List.mem_singleton_self x) sameX
    have sorted := ih keptL
    have whole := List.rdropWhile_append_rtakeWhile (p := (gt · x)) (l := sort gt l)
    rw [← whole] at sorted
    obtain ⟨front,back,apart⟩ := List.pairwise_append.1 sorted
    rw [sortConcat,insert]
    refine List.pairwise_append.2 ⟨front,List.pairwise_cons.2 ⟨fun b mem sameB => ?_,back⟩,fun a mem b mem' sameAB => ?_⟩
    · have more : gt b x = true := List.mem_rtakeWhile_imp (p := (gt · x)) mem
      rw [stays b x (sym x b sameB)] at more
      cases more
    · rcases List.mem_cons.1 mem' with rfl | late
      · exact earlier (whole ▸ List.mem_append_left _ mem) sameAB
      · exact apart a mem b late sameAB

/-- A comparison that follows a transitive relation sorts by it. -/
theorem sortWeak {le : α → α → Prop} {l : List α} (trans : ∀ a ∈ l, ∀ b ∈ l, ∀ c ∈ l, le a b → le b c → le a c)
    (above : ∀ e ∈ l, ∀ x ∈ l, gt e x = true → le x e) (below : ∀ e ∈ l, ∀ x ∈ l, gt e x = false → le e x) :
    (sort gt l).Pairwise le := by
  induction l using List.reverseRecOn with
  | nil => exact .nil
  | append_singleton l x ih =>
    have xIn : x ∈ l ++ [x] := List.mem_append_right _ (List.mem_singleton_self x)
    have wider {a : α} (mem : a ∈ l) : a ∈ l ++ [x] := List.mem_append_left _ mem
    have sorted := ih (fun a ha b hb c hc => trans a (wider ha) b (wider hb) c (wider hc))
      (fun e he y hy => above e (wider he) y (wider hy)) fun e he y hy => below e (wider he) y (wider hy)
    have whole := List.rdropWhile_append_rtakeWhile (p := (gt · x)) (l := sort gt l)
    have inside {a : α} (mem : a ∈ (sort gt l).rdropWhile (gt · x) ++ (sort gt l).rtakeWhile (gt · x)) : a ∈ l ++ [x] := by
      rw [whole] at mem
      exact wider ((sortPerm gt l).mem_iff.1 mem)
    rw [sortConcat,insert]
    rw [← whole] at sorted
    obtain ⟨front,back,apart⟩ := List.pairwise_append.1 sorted
    have behind {b : α} (mem : b ∈ (sort gt l).rtakeWhile (gt · x)) : le x b :=
      above b (inside (List.mem_append_right _ mem)) x xIn (List.mem_rtakeWhile_imp (p := (gt · x)) mem)
    have before {a : α} (mem : a ∈ (sort gt l).rdropWhile (gt · x)) : le a x := by
      rcases List.eq_nil_or_concat ((sort gt l).rdropWhile (gt · x)) with none_ | ⟨init,m,is⟩
      · rw [none_] at mem
        cases mem
      · rw [List.concat_eq_append] at is
        have mIn : m ∈ (sort gt l).rdropWhile (gt · x) := is ▸ List.mem_append_right _ (List.mem_singleton_self m)
        have stop := List.rdropWhile_last_not (gt · x) (sort gt l) (by rw [is]; simp)
        simp only [is,List.getLast_append_singleton] at stop
        have mx := below m (inside (List.mem_append_left _ mIn)) x xIn (Bool.eq_false_iff.2 stop)
        have memA := inside (List.mem_append_left _ mem)
        rw [is] at mem front
        rcases List.mem_append.1 mem with early | same
        · have am := (List.pairwise_append.1 front).2.2 a early m (List.mem_singleton_self m)
          exact trans a memA m (inside (List.mem_append_left _ mIn)) x xIn am mx
        · rwa [List.mem_singleton.1 same]
    refine List.pairwise_append.2 ⟨front,List.pairwise_cons.2 ⟨fun b => behind,back⟩,fun a mem b mem' => ?_⟩
    rcases List.mem_cons.1 mem' with rfl | late
    · exact before mem
    · exact apart a mem b late

/-- Numbered elements in two arrangements of the same elements, those that are alike by their numbers. -/
theorem numberedUnique {l m : List (α × Nat)} (perm : l.Perm m) (alike : l.map Prod.fst = m.map Prod.fst)
    (left : l.Pairwise fun a b => a.1 = b.1 → a.2 < b.2) (right : m.Pairwise fun a b => a.1 = b.1 → a.2 < b.2) : l = m := by
  induction l generalizing m with
  | nil => exact perm.nil_eq
  | cons a l ih =>
    cases m with
    | nil => cases alike
    | cons b m =>
      obtain ⟨first,rest_⟩ := List.cons.inj alike
      obtain ⟨low,left'⟩ := List.pairwise_cons.1 left
      obtain ⟨low',right'⟩ := List.pairwise_cons.1 right
      have same : a = b := by
        by_contra differ
        -- each of the two would be behind the other
        have late := (List.mem_cons.1 (perm.mem_iff.1 List.mem_cons_self)).resolve_left differ
        have late' := (List.mem_cons.1 (perm.mem_iff.2 List.mem_cons_self)).resolve_left (Ne.symm differ)
        exact Nat.lt_asymm (low b late' first) (low' a late first.symm)
      subst same
      rw [ih (List.Perm.cons_inv perm) rest_ left' right']

/-! ### A strict order on the elements -/

/-- Of two different elements one is in front of the other. -/
structure Strict (lt : α → α → Prop) (l : List α) : Prop where
  asymm : ∀ a ∈ l, ∀ b ∈ l, lt a b → ¬lt b a
  trans : ∀ a ∈ l, ∀ b ∈ l, ∀ c ∈ l, lt a b → lt b c → lt a c
  total : ∀ a ∈ l, ∀ b ∈ l, a ≠ b → lt a b ∨ lt b a

/-- The comparison finds the place of `x` among the earlier elements: those behind it are greater, and the last one in
front of it is not. -/
structure Placed (lt : α → α → Prop) (gt : α → α → Bool) (earlier : List α) (x : α) : Prop where
  behind : ∀ e ∈ earlier, lt x e → gt e x = true
  front : ∀ e ∈ earlier, lt e x → (∀ f ∈ earlier, lt f x → f = e ∨ lt f e) → gt e x = false

section
variable {gt} {lt : α → α → Prop}

theorem Strict.sub {l m : List α} (strict : Strict lt l) (sub : m ⊆ l) : Strict lt m where
  asymm := fun a ha b hb => strict.asymm a (sub ha) b (sub hb)
  trans := fun a ha b hb c hc => strict.trans a (sub ha) b (sub hb) c (sub hc)
  total := fun a ha b hb => strict.total a (sub ha) b (sub hb)

/-- The last of the elements in front of `x`. -/
theorem lastFront {s : List α} {x b : α} (sorted : s.Pairwise lt) (mem : b ∈ s) (less : lt b x) :
    ∃ m ∈ s, lt m x ∧ (b = m ∨ lt b m) ∧ ∀ f ∈ s, lt f x → f = m ∨ lt f m := by
  classical
  have inside : ∀ f, f ∈ s.filter (fun a => lt a x) ↔ f ∈ s ∧ lt f x := fun f => by rw [List.mem_filter,decide_eq_true_iff]
  have sorted := sorted.filter fun a => decide (lt a x)
  rcases List.eq_nil_or_concat (s.filter fun a => lt a x) with none_ | ⟨init,m,is⟩
  · exact absurd ((inside b).2 ⟨mem,less⟩) (none_ ▸ List.not_mem_nil)
  · rw [List.concat_eq_append] at is
    have last (f : α) (fs : f ∈ s) (lf : lt f x) : f = m ∨ lt f m := by
      have at_ := (inside f).2 ⟨fs,lf⟩
      rw [is] at at_ sorted
      rcases List.mem_append.1 at_ with early | late
      · exact .inr ((List.pairwise_append.1 sorted).2.2 f early m (List.mem_singleton_self m))
      · exact .inl (List.mem_singleton.1 late)
    obtain ⟨ms,lm⟩ := (inside m).1 (is ▸ List.mem_append_right _ (List.mem_singleton_self m))
    exact ⟨m,ms,lm,last b mem less,last⟩

theorem insertPlaced {s : List α} {x : α} (strict : Strict lt (x :: s)) (fresh : x ∉ s) (sorted : s.Pairwise lt) :
    (insert gt s x).Pairwise lt ↔ Placed lt gt s x := by
  have whole := List.rdropWhile_append_rtakeWhile (p := (gt · x)) (l := s)
  have backGreater : ∀ b ∈ s.rtakeWhile (gt · x), gt b x = true := fun b mem =>
    List.mem_rtakeWhile_imp (p := (gt · x)) mem
  have frontLast : ∀ init l, s.rdropWhile (gt · x) = init ++ [l] → gt l x = false := by
    intro init l is
    have stop := List.rdropWhile_last_not (gt · x) s (by rw [is]; simp)
    simp only [is,List.getLast_append_singleton] at stop
    exact Bool.eq_false_iff.2 stop
  rw [insert]
  generalize s.rdropWhile (gt · x) = front at whole frontLast
  generalize s.rtakeWhile (gt · x) = back at whole backGreater
  subst whole
  have inFront {a : α} (mem : a ∈ front) : a ∈ front ++ back := List.mem_append_left _ mem
  have inBack {b : α} (mem : b ∈ back) : b ∈ front ++ back := List.mem_append_right _ mem
  have fresh' {a : α} (mem : a ∈ front ++ back) : a ≠ x := fun same => fresh (same ▸ mem)
  have asymm {a : α} (mem : a ∈ front ++ back) (less : lt a x) : ¬lt x a :=
    strict.asymm a (List.mem_cons_of_mem _ mem) x List.mem_cons_self less
  have total {a : α} (mem : a ∈ front ++ back) : lt a x ∨ lt x a :=
    strict.total a (List.mem_cons_of_mem _ mem) x List.mem_cons_self (fresh' mem)
  obtain ⟨sortedFront,sortedBack,apart⟩ := List.pairwise_append.1 sorted
  rw [List.pairwise_append,List.pairwise_cons]
  constructor
  · rintro ⟨-,⟨above,-⟩,below⟩
    have less {a : α} (mem : a ∈ front) : lt a x := below a mem x List.mem_cons_self
    constructor
    · intro e mem lxe
      rcases List.mem_append.1 mem with early | late
      · exact absurd lxe (asymm mem (less early))
      · exact backGreater e late
    · intro e mem lex last
      have early : e ∈ front := (List.mem_append.1 mem).resolve_right fun late => asymm mem lex (above e late)
      -- the last of the front is the last element in front of `x`
      rcases List.eq_nil_or_concat front with none_ | ⟨init,l,is⟩
      · rw [none_] at early
        cases early
      · rw [List.concat_eq_append] at is
        have lFront : l ∈ front := is ▸ List.mem_append_right _ (List.mem_singleton_self l)
        rcases last l (inFront lFront) (less lFront) with rfl | lle
        · exact frontLast init l is
        · rw [is] at early sortedFront
          rcases List.mem_append.1 early with before | same
          · have lel := (List.pairwise_append.1 sortedFront).2.2 e before l (List.mem_singleton_self l)
            exact absurd lle (strict.asymm e (List.mem_cons_of_mem _ mem) l (List.mem_cons_of_mem _ (inFront lFront)) lel)
          · rw [List.mem_singleton.1 same]
            exact frontLast init l is
  · intro placed
    have above : ∀ b ∈ back, lt x b := by
      intro b mem
      refine (total (inBack mem)).resolve_left fun lbx => ?_
      obtain ⟨m,mIn,lmx,after,last⟩ := lastFront sorted (inBack mem) lbx
      have mBack : m ∈ back := by
        rcases after with rfl | lbm
        · exact mem
        · refine (List.mem_append.1 mIn).resolve_left fun early => ?_
          exact strict.asymm b (List.mem_cons_of_mem _ (inBack mem)) m (List.mem_cons_of_mem _ mIn) lbm (apart m early b mem)
      exact absurd (backGreater m mBack) (by rw [placed.front m mIn lmx last]; exact Bool.false_ne_true)
    have below : ∀ a ∈ front, lt a x := by
      intro a mem
      refine (total (inFront mem)).resolve_right fun lxa => ?_
      rcases List.eq_nil_or_concat front with none_ | ⟨init,l,is⟩
      · rw [none_] at mem
        cases mem
      · rw [List.concat_eq_append] at is
        have lFront : l ∈ front := is ▸ List.mem_append_right _ (List.mem_singleton_self l)
        have lxl : lt x l := by
          rw [is] at mem sortedFront
          rcases List.mem_append.1 mem with before | same
          · exact strict.trans x List.mem_cons_self a (List.mem_cons_of_mem _ (inFront (is ▸ mem))) l
              (List.mem_cons_of_mem _ (inFront lFront)) lxa
              ((List.pairwise_append.1 sortedFront).2.2 a before l (List.mem_singleton_self l))
          · rwa [List.mem_singleton.1 same] at lxa
        exact absurd (placed.behind l (inFront lFront) lxl) (by rw [frontLast init l is]; exact Bool.false_ne_true)
    refine ⟨sortedFront,⟨above,sortedBack⟩,fun a mem b mem' => ?_⟩
    rcases List.mem_cons.1 mem' with rfl | late
    · exact below a mem
    · exact apart a mem b late

/-- The result is in order just when each element finds its place among those in front of it. -/
theorem sortPlaced {l : List α} (strict : Strict lt l) (nodup : l.Nodup) :
    (sort gt l).Pairwise lt ↔ ∀ pre x post, l = pre ++ x :: post → Placed lt gt pre x := by
  induction l using List.reverseRecOn with
  | nil => exact iff_of_true .nil fun pre x post is => absurd is (by simp)
  | append_singleton l x ih =>
    have perm := sortPerm gt l
    have earlier := ih (strict.sub (List.subset_append_left _ _)) (List.nodup_append.1 nodup).1
    have fresh : x ∉ sort gt l := fun mem =>
      (List.nodup_append.1 nodup).2.2 x (perm.mem_iff.1 mem) x (List.mem_singleton_self x) rfl
    have inside (e : α) : e ∈ sort gt l ↔ e ∈ l := perm.mem_iff
    have newest : Placed lt gt (sort gt l) x ↔ Placed lt gt l x := by
      constructor
      · intro placed
        exact ⟨fun e mem => placed.behind e ((inside e).2 mem),
          fun e mem less last => placed.front e ((inside e).2 mem) less fun f memF => last f ((inside f).1 memF)⟩
      · intro placed
        exact ⟨fun e mem => placed.behind e ((inside e).1 mem),
          fun e mem less last => placed.front e ((inside e).1 mem) less fun f memF => last f ((inside f).2 memF)⟩
    have strict' : Strict lt (x :: sort gt l) := strict.sub fun e mem => by
      rcases List.mem_cons.1 mem with rfl | mem
      · exact List.mem_append_right _ (List.mem_singleton_self e)
      · exact List.mem_append_left _ ((inside e).1 mem)
    rw [sortConcat]
    constructor
    · intro sorted pre y post is
      have before : (sort gt l).Pairwise lt := sorted.sublist (insertSublist gt _ x)
      rcases List.eq_nil_or_concat post with none_ | ⟨post,z,ends⟩
      · rw [none_] at is
        obtain ⟨rfl,same⟩ := List.append_inj' is rfl
        obtain rfl := List.singleton_inj.1 same
        exact newest.1 ((insertPlaced strict' fresh before).1 sorted)
      · rw [ends,List.concat_eq_append,← List.cons_append,← List.append_assoc] at is
        exact earlier.1 before pre y post (List.append_inj' is rfl).1
    · intro placed
      have before : (sort gt l).Pairwise lt := earlier.2 fun pre y post is => placed pre y (post ++ [x]) (by rw [is]; simp)
      exact (insertPlaced strict' fresh before).2 (newest.2 (placed l x [] rfl))

end
end Napastak.InsertSort
