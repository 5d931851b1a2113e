import Mathlib.Data.List.Basic

/-! A table of names with values and room for so many: the first entry of a name counts, a value that is put takes the place of the
one that is there, a new name goes behind the others while there is room. -/
namespace Napastak.Table

variable {κ α : Type} [DecidableEq κ] [BEq κ] [LawfulBEq κ]

def names (d : List (κ × α)) : List κ := d.map Prod.fst

def set : List (κ × α) → κ → α → List (κ × α)
  | [], _, _ => []
  | e :: d, k, v => if e.1 = k then (k,v) :: d else e :: set d k v

def put (room : Nat) (d : List (κ × α)) (k : κ) (v : α) : List (κ × α) :=
  if k ∈ names d then set d k v else if d.length < room then d ++ [(k,v)] else d

def puts (room : Nat) (d new : List (κ × α)) : List (κ × α) := new.foldl (fun d e => put room d e.1 e.2) d

/-- The value put last. -/
def last (new : List (κ × α)) (k : κ) : Option α := new.reverse.lookup k

/-- The names that are not there yet, each once. -/
def news (seen : List κ) : List (κ × α) → List κ
  | [] => []
  | e :: new => if e.1 ∈ seen then news seen new else e.1 :: news (e.1 :: seen) new

theorem lookupCons (e : κ × α) (d : List (κ × α)) (n : κ) : (e :: d).lookup n = if n = e.1 then some e.2 else d.lookup n := by
  rw [List.lookup_cons]
  by_cases this : n = e.1
  · simp [this]
  · rw [beq_false_of_ne this,if_neg this]

theorem lookupNone {d : List (κ × α)} {k : κ} : d.lookup k = none ↔ k ∉ names d := by
  induction d with
  | nil => simp [names]
  | cons e d ih =>
    rw [lookupCons,names,List.map_cons,List.mem_cons,not_or,← names,← ih]
    by_cases same : k = e.1 <;> simp [same]

theorem lookupMem {d : List (κ × α)} {k : κ} {v : α} (is : d.lookup k = some v) : (k,v) ∈ d := by
  induction d with
  | nil => cases is
  | cons e d ih =>
    rw [lookupCons] at is
    split at is
    · rename_i same
      obtain rfl := Option.some.inj is
      exact same ▸ List.mem_cons_self
    · exact List.mem_cons_of_mem _ (ih is)

theorem lookupOnce {d : List (κ × α)} (once : (names d).Nodup) {e : κ × α} (mem : e ∈ d) : d.lookup e.1 = some e.2 := by
  induction d with
  | nil => cases mem
  | cons g d ih =>
    obtain ⟨out,once⟩ := List.nodup_cons.mp once
    rw [lookupCons]
    obtain rfl | mem := List.mem_cons.mp mem
    · rw [if_pos rfl]
    · have other : e.1 ≠ g.1 := fun same => out (same ▸ List.mem_map_of_mem mem)
      rw [if_neg other,ih once mem]

omit [BEq κ] [LawfulBEq κ] in
@[simp] theorem namesSet (d : List (κ × α)) (k : κ) (v : α) : names (set d k v) = names d := by
  induction d with
  | nil => rfl
  | cons e d ih =>
    rw [set]
    split
    · rename_i same
      simp [names,same]
    · simpa [names] using ih

theorem lookupSet {d : List (κ × α)} {k : κ} (v : α) (known : k ∈ names d) (n : κ) :
    (set d k v).lookup n = if n = k then some v else d.lookup n := by
  induction d with
  | nil => cases known
  | cons e d ih =>
    rw [set]
    by_cases same : e.1 = k
    · rw [if_pos same,lookupCons,lookupCons,same]
      by_cases this : n = k <;> simp [this]
    · have later : k ∈ names d := by
        rw [names,List.map_cons,List.mem_cons] at known
        exact known.resolve_left fun h => same h.symm
      rw [if_neg same,lookupCons,lookupCons,ih later]
      by_cases this : n = e.1
      · rw [if_pos this,if_pos this,if_neg (this ▸ same)]
      · rw [if_neg this,if_neg this]

omit [DecidableEq κ] in
theorem newsCongr {seen seen' : List κ} (same : ∀ n, n ∈ seen ↔ n ∈ seen') (new : List (κ × α)) : news seen new = news seen' new := by
  induction new generalizing seen seen' with
  | nil => rfl
  | cons e new ih =>
    rw [news,news,ih same,@ih (e.1 :: seen) (e.1 :: seen') fun n => by rw [List.mem_cons,List.mem_cons,same]]
    simp only [same]

theorem newsAre (seen : List κ) (new : List (κ × α)) (n : κ) : n ∈ news seen new ↔ n ∈ names new ∧ n ∉ seen := by
  induction new generalizing seen with
  | nil => simp [news,names]
  | cons e new ih =>
    rw [news,names,List.map_cons,← names,List.mem_cons]
    split
    · rename_i known
      rw [ih]
      constructor
      · exact fun ⟨mem,out⟩ => ⟨.inr mem,out⟩
      · rintro ⟨rfl | mem,out⟩
        · exact absurd known out
        · exact ⟨mem,out⟩
    · rename_i unknown
      rw [List.mem_cons,ih,List.mem_cons]
      by_cases this : n = e.1
      · simp [this,unknown]
      · simp [this]

theorem newsOnce (seen : List κ) (new : List (κ × α)) : (news seen new).Nodup := by
  induction new generalizing seen with
  | nil => exact List.nodup_nil
  | cons e new ih =>
    rw [news]
    split
    · exact ih seen
    · refine List.nodup_cons.mpr ⟨fun mem => ?_,ih _⟩
      exact ((newsAre _ new _).mp mem).2 List.mem_cons_self

theorem lastCons (e : κ × α) (new : List (κ × α)) (n : κ) : last (e :: new) n = (last new n).or (if n = e.1 then some e.2 else none) := by
  rw [last,List.reverse_cons,List.lookup_append,last,lookupCons]
  rfl

theorem lastNone {new : List (κ × α)} {n : κ} : last new n = none ↔ n ∉ names new := by
  rw [last,lookupNone,names,List.map_reverse,List.mem_reverse,names]

/-- A name that is there, or for which there was room, has the value put last. -/
theorem putsLookup (room : Nat) (d new : List (κ × α)) (n : κ) :
    (puts room d new).lookup n =
      if n ∈ names d ∨ n ∈ (news (names d) new).take (room - d.length) then (last new n).or (d.lookup n) else none := by
  induction new generalizing d with
  | nil =>
    by_cases known : n ∈ names d
    · rw [if_pos (.inl known)]
      rfl
    · rw [if_neg (by simpa [news] using known)]
      exact lookupNone.mpr known
  | cons e new ih =>
    have step : puts room d (e :: new) = puts room (put room d e.1 e.2) new := rfl
    rw [step,ih,lastCons,Option.or_assoc]
    by_cases known : e.1 ∈ names d
    · have length : (set d e.1 e.2).length = d.length := by simpa [names] using congrArg List.length (namesSet d e.1 e.2)
      rw [put,if_pos known,namesSet,news,if_pos known,lookupSet e.2 known,length]
      by_cases this : n = e.1 <;> simp [this]
    · by_cases free : d.length < room
      · have grown : names (d ++ [(e.1,e.2)]) = names d ++ [e.1] := by simp [names]
        have same : news (names d ++ [e.1]) new = news (e.1 :: names d) new := newsCongr (fun m => by simp [or_comm]) new
        have left : room - d.length = room - (d.length + 1) + 1 := by omega
        have value : (d ++ [(e.1,e.2)]).lookup n = (if n = e.1 then some e.2 else none).or (d.lookup n) := by
          rw [List.lookup_append,lookupCons]
          by_cases this : n = e.1
          · subst this
            simp [lookupNone.mpr known]
          · simp [this]
        rw [put,if_neg known,if_pos free,grown,same,news,if_neg known,List.length_append,List.length_singleton,left,List.take_succ_cons,value]
        simp only [List.mem_append,List.mem_cons,List.not_mem_nil,false_or,or_assoc]
      · have none_ : room - d.length = 0 := by omega
        rw [put,if_neg known,if_neg free,none_,List.take_zero,List.take_zero]
        by_cases this : n = e.1
        · subst this
          simp [known]
        · simp [this]

end Napastak.Table
