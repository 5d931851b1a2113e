import Mathlib.Data.List.Induction

/-! Insertion sort by a comparison that orders groups first, and the element each group of the sorted list begins
with. Within a group the comparison need not be an order. -/
namespace Napastak.Groups
variable {α β : Type} [DecidableEq β] (cmp : α → α → Int) (part : α → β)

/-- A sorted list, its last element first, with `x` put behind the last element that is not after it. -/
def insertBack (x : α) : List α → List α
  | [] => [x]
  | y :: ys => if cmp y x ≤ 0 then x :: y :: ys else y :: insertBack x ys

def sortBack (xs : List α) : List α := xs.foldl (fun sorted x => insertBack cmp x sorted) []

def headsGo (prev : Option β) : List α → List α
  | [] => []
  | x :: xs => if prev = some (part x) then headsGo prev xs else x :: headsGo (some (part x)) xs

/-- The first element of every run of one group. -/
def heads (xs : List α) : List α := headsGo part none xs

def leaders (xs : List α) : List α := heads part (sortBack cmp xs).reverse

/-- The groups come in the order `lt`, whatever the comparison does inside them. -/
structure Grouped (lt : β → β → Prop) : Prop where
  trans : ∀ {a b c}, lt a b → lt b c → lt a c
  irrefl : ∀ a, ¬ lt a a
  before : ∀ {a b}, cmp a b ≤ 0 → part a = part b ∨ lt (part a) (part b)
  after : ∀ {a b}, 0 < cmp a b → part a = part b ∨ lt (part b) (part a)

def FromLast (lt : β → β → Prop) (xs : List α) : Prop := xs.Pairwise fun a b => part a = part b ∨ lt (part b) (part a)

variable {cmp part} {lt : β → β → Prop}

theorem insertMem (x z : α) (xs : List α) : z ∈ insertBack cmp x xs ↔ z = x ∨ z ∈ xs := by
  induction xs with
  | nil => simp [insertBack]
  | cons y ys ih =>
    rw [insertBack]
    split
    · rw [List.mem_cons]
    · rw [List.mem_cons,ih,List.mem_cons]
      exact or_left_comm

omit [DecidableEq β] in
theorem insertSorted (grouped : Grouped cmp part lt) {xs : List α} (h : FromLast part lt xs) (x : α) :
    FromLast part lt (insertBack cmp x xs) := by
  induction xs with
  | nil => exact List.pairwise_singleton _ _
  | cons y ys ih =>
    obtain ⟨first,others⟩ := List.pairwise_cons.mp h
    rw [insertBack]
    split
    · rename_i stop
      refine List.pairwise_cons.mpr ⟨fun z hz => ?_,h⟩
      have hy : part x = part y ∨ lt (part y) (part x) := (grouped.before stop).imp Eq.symm id
      rcases List.mem_cons.mp hz with rfl | hz
      · exact hy
      · rcases hy, first z hz with ⟨e | l,e' | l'⟩
        · exact .inl (e.trans e')
        · exact .inr (e ▸ l')
        · exact .inr (e' ▸ l)
        · exact .inr (grouped.trans l' l)
    · rename_i pass
      refine List.pairwise_cons.mpr ⟨fun z hz => ?_,ih others⟩
      rcases (insertMem x z ys).mp hz with rfl | hz
      · exact grouped.after (Int.not_le.mp pass)
      · exact first z hz

theorem insertOther {g : β} {x : α} (other : part x ≠ g) (xs : List α) :
    (insertBack cmp x xs).filter (part · = g) = xs.filter (part · = g) := by
  induction xs with
  | nil => simp [insertBack,other]
  | cons y ys ih =>
    rw [insertBack]
    split
    · rw [List.filter_cons_of_neg (by simpa using other)]
    · simp only [List.filter_cons,ih]

/-- An element before all of its group becomes its first. -/
theorem insertFirst (grouped : Grouped cmp part lt) {xs : List α} (h : FromLast part lt xs) {g : β} {x : α}
    (here : part x = g) (beats : ∀ y ∈ xs, part y = g → 0 < cmp y x) :
    (insertBack cmp x xs).filter (part · = g) = xs.filter (part · = g) ++ [x] := by
  induction xs with
  | nil => simp [insertBack,here]
  | cons y ys ih =>
    obtain ⟨first,others⟩ := List.pairwise_cons.mp h
    rw [insertBack]
    split
    · rename_i stop
      -- the element it stops behind is of an earlier group, so no element of its own is left
      have away : part y ≠ g := fun e => absurd (beats y (List.mem_cons_self ..) e) (Int.not_lt.mpr stop)
      have earlier : lt (part y) g := here ▸ (grouped.before stop).resolve_left fun e => away (e.trans here)
      have none_ : (y :: ys).filter (part · = g) = [] := List.filter_eq_nil_iff.mpr fun z hz => by
        have hz' : part z ≠ g := by
          rintro rfl
          rcases List.mem_cons.mp hz with rfl | hz
          · exact away rfl
          · rcases first z hz with e | later
            · exact away e
            · exact grouped.irrefl _ (grouped.trans earlier later)
        simpa using hz'
      rw [List.filter_cons_of_pos (by simpa using here),none_,List.nil_append]
    · have rest := ih others fun z hz => beats z (List.mem_cons_of_mem _ hz)
      simp only [List.filter_cons,rest]
      split <;> rfl

theorem sortSnoc (xs : List α) (x : α) : sortBack cmp (xs ++ [x]) = insertBack cmp x (sortBack cmp xs) := by
  simp [sortBack]

theorem sortMem (z : α) (xs : List α) : z ∈ sortBack cmp xs ↔ z ∈ xs := by
  induction xs using List.reverseRecOn with
  | nil => simp [sortBack]
  | append_singleton xs x ih => rw [sortSnoc,insertMem,ih,List.mem_append,List.mem_singleton,or_comm]

omit [DecidableEq β] in
theorem sortSorted (grouped : Grouped cmp part lt) (xs : List α) : FromLast part lt (sortBack cmp xs) := by
  induction xs using List.reverseRecOn with
  | nil => exact List.Pairwise.nil
  | append_singleton xs x ih => rw [sortSnoc]; exact insertSorted grouped ih x

theorem headsAfter (grouped : Grouped cmp part lt) {g p : β} {xs : List α}
    (h : xs.Pairwise fun a b => part a = part b ∨ lt (part a) (part b)) (from_ : ∀ z ∈ xs, p = part z ∨ lt p (part z)) :
    (headsGo part (some p) xs).filter (part · = g) = if p = g then [] else (xs.filter (part · = g)).take 1 := by
  induction xs generalizing p with
  | nil => simp [headsGo]
  | cons x xs ih =>
    obtain ⟨first,others⟩ := List.pairwise_cons.mp h
    rw [headsGo]
    by_cases same : p = part x
    · rw [if_pos (congrArg some same),ih others fun z hz => from_ z (List.mem_cons_of_mem _ hz)]
      by_cases here : p = g
      · rw [if_pos here,if_pos here]
      · rw [if_neg here,if_neg here,List.filter_cons_of_neg (by simpa using same ▸ here)]
    · rw [if_neg (fun e => same (Option.some.inj e)),List.filter_cons,ih others first]
      by_cases here : part x = g
      · rw [if_pos (by simpa using here),if_pos here,if_neg (fun e => same (e.trans here.symm)),
          List.filter_cons_of_pos (by simpa using here)]
        rfl
      · rw [if_neg (by simpa using here),if_neg here,List.filter_cons_of_neg (by simpa using here)]
        split
        · rename_i gone
          have later : lt p (part x) := (from_ x (List.mem_cons_self ..)).resolve_left same
          have none_ : xs.filter (part · = g) = [] := List.filter_eq_nil_iff.mpr fun z hz => by
            have hz' : part z ≠ g := by
              rintro rfl
              rcases first z hz with e | l
              · exact here e
              · exact grouped.irrefl _ (grouped.trans (gone ▸ later) l)
            simpa using hz'
          rw [none_]
          rfl
        · rfl

theorem headsFirst (grouped : Grouped cmp part lt) (g : β) {xs : List α}
    (h : xs.Pairwise fun a b => part a = part b ∨ lt (part a) (part b)) :
    (heads part xs).filter (part · = g) = (xs.filter (part · = g)).take 1 := by
  cases xs with
  | nil => rfl
  | cons x xs =>
    obtain ⟨first,others⟩ := List.pairwise_cons.mp h
    rw [heads,headsGo,if_neg (fun e => nomatch e),List.filter_cons,headsAfter grouped others first]
    by_cases here : part x = g
    · rw [if_pos (by simpa using here),if_pos here,List.filter_cons_of_pos (by simpa using here)]
      rfl
    · rw [if_neg (by simpa using here),if_neg here,List.filter_cons_of_neg (by simpa using here)]

theorem sortLater {g : β} {post : List α} (other : ∀ z ∈ post, part z ≠ g) (xs : List α) :
    (sortBack cmp (xs ++ post)).filter (part · = g) = (sortBack cmp xs).filter (part · = g) := by
  induction post using List.reverseRecOn with
  | nil => rw [List.append_nil]
  | append_singleton post z ih =>
    rw [← List.append_assoc,sortSnoc,insertOther (other z (by simp)),ih fun y hy => other y (by simp [hy])]

/-- The last element of a group leads it if it comes before all the others. -/
theorem leadersLast (grouped : Grouped cmp part lt) {g : β} {pre post : List α} {x : α} (here : part x = g)
    (beats : ∀ y ∈ pre, part y = g → 0 < cmp y x) (other : ∀ z ∈ post, part z ≠ g) :
    (leaders cmp part (pre ++ x :: post)).filter (part · = g) = [x] := by
  have group : (sortBack cmp (pre ++ x :: post)).filter (part · = g) = (sortBack cmp pre).filter (part · = g) ++ [x] := by
    rw [show pre ++ x :: post = pre ++ [x] ++ post by simp,sortLater other,sortSnoc]
    exact insertFirst grouped (sortSorted grouped pre) here fun y hy => beats y ((sortMem y pre).mp hy)
  have sorted : (sortBack cmp (pre ++ x :: post)).reverse.Pairwise fun a b => part a = part b ∨ lt (part a) (part b) :=
    List.pairwise_reverse.mpr ((sortSorted grouped (pre ++ x :: post)).imp fun h => h.imp Eq.symm id)
  rw [leaders,headsFirst grouped g sorted,List.filter_reverse,group]
  simp

theorem headsMem {z : α} : ∀ {prev : Option β} {xs : List α}, z ∈ headsGo part prev xs → z ∈ xs
  | _,[],h => h
  | prev,x :: xs,h => by
    rw [headsGo] at h
    split at h
    · exact List.mem_cons_of_mem _ (headsMem h)
    · rcases List.mem_cons.mp h with rfl | h
      · exact List.mem_cons_self ..
      · exact List.mem_cons_of_mem _ (headsMem h)

theorem leadersMem {z : α} {xs : List α} (h : z ∈ leaders cmp part xs) : z ∈ xs :=
  (sortMem z xs).mp (List.mem_reverse.mp (headsMem h))

theorem headsCover {x : α} : ∀ {prev : Option β} {xs : List α}, x ∈ xs →
    prev ≠ some (part x) → ∃ y ∈ headsGo part prev xs, part y = part x
  | prev,y :: ys,hx,other => by
    rw [headsGo]
    rcases List.mem_cons.mp hx with rfl | hx
    · exact ⟨x,by rw [if_neg other]; exact List.mem_cons_self ..,rfl⟩
    · by_cases same : prev = some (part y)
      · rw [if_pos same]
        exact headsCover hx other
      · rw [if_neg same]
        by_cases here : part y = part x
        · exact ⟨y,List.mem_cons_self ..,here⟩
        · obtain ⟨z,hz,e⟩ := headsCover hx fun (e : some (part y) = _) => here (Option.some.inj e)
          exact ⟨z,List.mem_cons_of_mem _ hz,e⟩

theorem leadersCover {x : α} {xs : List α} (h : x ∈ xs) : ∃ y ∈ leaders cmp part xs, part y = part x :=
  headsCover (List.mem_reverse.mpr ((sortMem x xs).mpr h)) fun e => nomatch e

theorem filterUnique {f : α → β} {xs : List α} (nodup : (xs.map f).Nodup) {x : α} (hx : x ∈ xs) :
    xs.filter (fun y => f y = f x) = [x] := by
  induction xs with
  | nil => cases hx
  | cons y ys ih =>
    obtain ⟨fresh,rest⟩ := List.nodup_cons.mp nodup
    rcases List.mem_cons.mp hx with rfl | hx
    · rw [List.filter_cons_of_pos (by simp),List.filter_eq_nil_iff.mpr]
      intro z hz
      have ne : f z ≠ f x := fun e => fresh (e ▸ List.mem_map_of_mem hz)
      simpa using ne
    · have ne : f y ≠ f x := fun e => fresh (e ▸ List.mem_map_of_mem hx)
      rw [List.filter_cons_of_neg (by simpa using ne),ih rest hx]

end Napastak.Groups
