import Napastak.Lib.Kahn
import Napastak.Pipeline

/-! `pipeline_topo_order`: the steps of a pipeline ordered by their dependencies. -/
namespace Napastak.Scheduler
open Query Kahn

/-- The arrays of the function, and the steps put out so far. -/
structure Topo where
  indeg : Nat → Nat
  done : Nat → Bool
  order : List Nat

def Pipeline.nsteps (p : Pipeline) : Nat := p.steps.1.length

/-- `steps[i].deps`. -/
def Pipeline.depsOf (p : Pipeline) (i : Nat) : List Int32 := ((p.steps.1[i]?).map fun st => st.deps.1).getD []

/-- An entry that counts; the others are ignored. -/
def countsFor (n i : Nat) (dep : Int32) : Bool := 0 ≤ dep.toInt && dep.toInt < (n : Int) && dep.toInt ≠ (i : Int)

def firstReady (n : Nat) (t : Topo) : Option Nat := (List.range n).find? fun i => !t.done i && t.indeg i = 0

/-- The step `pick` is put out, and no step waits for it any longer. -/
def release (p : Pipeline) (t : Topo) (pick : Nat) : Topo :=
  let done := fun i => i = pick || t.done i
  { indeg := fun i => if done i then t.indeg i else t.indeg i - (p.depsOf i).countP fun dep => dep.toInt = (pick : Int)
    done := done
    order := t.order ++ [pick] }

/-- The ids of the steps that are left, in 256 bytes: what is written for good, and what stands in the buffer. -/
def stuckIds (p : Pipeline) (t : Topo) : Bytes :=
  ((List.range p.nsteps).foldl (fun (ids,shown) i =>
    if t.done i then (ids,shown)
    else
      let id := ((p.steps.1[i]?).map fun st => (st.text .id).1).getD []
      let piece := (if ids = [] then [] else [44]) ++ if id = [] then [63] else id
      if piece.length < 256 - ids.length then (ids ++ piece,ids ++ piece) else (ids,ids ++ piece.take (255 - ids.length)))
    (([],[]) : Bytes × Bytes)).2

/-- Rounds of the main loop; an error is the state in which no step was ready. -/
def topoRounds (p : Pipeline) : Nat → Topo → Except Topo Topo
  | 0, t => .ok t
  | n + 1, t =>
    match firstReady p.nsteps t with
    | none => .error t
    | some pick => topoRounds p n (release p t pick)

def topoStart (p : Pipeline) : Topo := ⟨fun i => (p.depsOf i).countP (countsFor p.nsteps i),fun _ => false,[]⟩

/-- The order, or the text left in `errsz` bytes with the result -1. -/
def pipelineTopoOrder (p : Pipeline) (errsz : Nat) : Except Bytes (List Nat) :=
  match topoRounds p p.nsteps (topoStart p) with
  | .ok t => .ok t.order
  | .error t => .error ((ascii "dependency cycle among steps: " ++ stuckIds p t).take (errsz - 1))

/-- Step `i` names step `j` among its dependencies. -/
def DependsOn (p : Pipeline) (i j : Nat) : Prop := i < p.nsteps ∧ j < p.nsteps ∧ j ≠ i ∧ ∃ dep ∈ p.depsOf i, dep.toInt = (j : Int)

/-! ### What a round keeps -/

variable {p : Pipeline} {t : Topo}

def steps (p : Pipeline) : Finset Nat := Finset.range p.nsteps

/-- The steps put out are marked, and every other step counts the entries that it still waits for. -/
structure Counted (p : Pipeline) (t : Topo) : Prop where
  greedy : Greedy (steps p) (DependsOn p) t.order
  done : ∀ i, t.done i = true ↔ i ∈ t.order
  indeg : ∀ i, i ∉ t.order → t.indeg i = (p.depsOf i).countP fun dep => countsFor p.nsteps i dep && dep.toInt.toNat ∉ t.order

theorem countsIff {i : Nat} (inside : i < p.nsteps) {dep : Int32} (mem : dep ∈ p.depsOf i) :
    countsFor p.nsteps i dep = true ↔ ∃ j : Nat, dep.toInt = (j : Int) ∧ DependsOn p i j := by
  simp only [countsFor,Bool.and_eq_true,decide_eq_true_eq]
  constructor
  · rintro ⟨⟨pos,small⟩,other⟩
    obtain ⟨j,is⟩ := Int.eq_ofNat_of_zero_le pos
    rw [is] at small other
    exact ⟨j,is,inside,Int.ofNat_lt.mp small,fun same => other (congrArg Int.ofNat same),dep,mem,is⟩
  · rintro ⟨j,is,_,small,other,_⟩
    rw [is]
    exact ⟨⟨Int.natCast_nonneg j,Int.ofNat_lt.mpr small⟩,fun same => other (Int.ofNat.inj same)⟩

theorem startCounted (p : Pipeline) : Counted p (topoStart p) := by
  refine ⟨.nil,fun i => ⟨nofun,nofun⟩,fun i _ => ?_⟩
  refine List.countP_congr fun dep _ => ?_
  simp only [topoStart,List.not_mem_nil,not_false_eq_true,decide_true,Bool.and_true]

/-- A step is ready exactly when it is not marked and its count is zero. -/
theorem Counted.ready (h : Counted p t) {i : Nat} (inside : i < p.nsteps) :
    (!t.done i && t.indeg i = 0) = true ↔ Ready (steps p) (DependsOn p) t.order i := by
  have marked : t.done i = false ↔ i ∉ t.order := by rw [← h.done i,Bool.not_eq_true]
  rw [Bool.and_eq_true,Bool.not_eq_true',marked,decide_eq_true_eq]
  refine ⟨fun ⟨out,zero⟩ => ⟨Finset.mem_range.mpr inside,out,fun j needs => ?_⟩,fun ⟨_,out,taken⟩ => ⟨out,?_⟩⟩
  · rw [h.indeg i out,List.countP_eq_zero] at zero
    obtain ⟨dep,mem,is⟩ := needs.2.2.2
    have waits := zero dep mem
    rw [(countsIff inside mem).mpr ⟨j,is,needs⟩,is,Int.toNat_natCast] at waits
    simpa using waits
  · rw [h.indeg i out,List.countP_eq_zero]
    intro dep mem waits
    rw [Bool.and_eq_true,countsIff inside mem] at waits
    obtain ⟨⟨j,is,needs⟩,missing⟩ := waits
    rw [is,Int.toNat_natCast] at missing
    exact of_decide_eq_true missing (taken j needs)

theorem Counted.none (h : Counted p t) (none_ : firstReady p.nsteps t = none) (i : Nat) : ¬ Ready (steps p) (DependsOn p) t.order i := by
  intro ready
  have inside := Finset.mem_range.mp ready.1
  exact List.find?_eq_none.mp none_ i (List.mem_range.mpr inside) ((h.ready inside).mpr ready)

theorem Counted.pick (h : Counted p t) {i : Nat} (found : firstReady p.nsteps t = some i) :
    IsLeast {i | Ready (steps p) (DependsOn p) t.order i} i := by
  obtain ⟨holds,mem,earlier⟩ := List.find?_range_eq_some.mp found
  refine ⟨(h.ready (List.mem_range.mp mem)).mp holds,fun j ready => ?_⟩
  by_contra less
  have inside := Finset.mem_range.mp ready.1
  have := earlier j (Nat.not_le.mp less)
  rw [(h.ready inside).mpr ready] at this
  cases this

theorem Counted.release (h : Counted p t) {pick : Nat} (least : IsLeast {i | Ready (steps p) (DependsOn p) t.order i} pick) :
    Counted p (release p t pick) := by
  have inside : pick < p.nsteps := Finset.mem_range.mp least.1.1
  have fresh : pick ∉ t.order := least.1.2.1
  have marked (i : Nat) : (i = pick || t.done i) = true ↔ i ∈ t.order ++ [pick] := by
    rw [Bool.or_eq_true,decide_eq_true_eq,h.done,List.mem_append,List.mem_singleton,or_comm]
  refine ⟨h.greedy.snoc least,marked,fun i out => ?_⟩
  have apart : i ≠ pick ∧ i ∉ t.order := by
    rw [Scheduler.release,List.mem_append,List.mem_singleton,not_or] at out
    exact ⟨out.2,out.1⟩
  have unmarked : ¬ (i = pick || t.done i) = true := fun is => out ((marked i).mp is)
  rw [Scheduler.release]
  dsimp only
  rw [if_neg unmarked,h.indeg i apart.2]
  -- the entries waited for are those of `pick` and those still waited for
  have split_ : (p.depsOf i).countP (fun dep => countsFor p.nsteps i dep && dep.toInt.toNat ∉ t.order) =
      (p.depsOf i).countP (fun dep => dep.toInt = (pick : Int)) +
        (p.depsOf i).countP fun dep => countsFor p.nsteps i dep && dep.toInt.toNat ∉ t.order ++ [pick] := by
    induction p.depsOf i with
    | nil => rfl
    | cons dep deps ih =>
      rw [List.countP_cons,List.countP_cons,List.countP_cons,ih]
      by_cases is : dep.toInt = (pick : Int)
      · have counts : countsFor p.nsteps i dep = true := by
          simp only [countsFor,is,Bool.and_eq_true,decide_eq_true_eq]
          exact ⟨⟨Int.natCast_nonneg _,Int.ofNat_lt.mpr inside⟩,fun same => apart.1 (Int.ofNat.inj same).symm⟩
        simp only [counts,is,Int.toNat_natCast,fresh,List.mem_append,List.mem_singleton,or_true,not_true,not_false_eq_true,decide_true,
          decide_false,Bool.and_true,Bool.and_false,if_true,Bool.false_eq_true,if_false]
        omega
      · by_cases counts : countsFor p.nsteps i dep = true
        · have pos : 0 ≤ dep.toInt := by
            simp only [countsFor,Bool.and_eq_true,decide_eq_true_eq] at counts
            exact counts.1.1
          have other : dep.toInt.toNat ≠ pick := fun same => is (by rw [← same,Int.toNat_of_nonneg pos])
          simp only [counts,is,other,List.mem_append,List.mem_singleton,or_false,decide_false,Bool.true_and,Bool.false_eq_true,if_false]
          omega
        · simp only [counts,is,decide_false,Bool.false_and,Bool.false_eq_true,if_false]
          omega
  rw [split_,Nat.add_sub_cancel_left]

theorem roundsCounted : ∀ (n : Nat) {t : Topo}, Counted p t →
    match topoRounds p n t with
    | .ok t' => Counted p t' ∧ t'.order.length = t.order.length + n
    | .error t' => Counted p t' ∧ firstReady p.nsteps t' = none ∧ t'.order.length < t.order.length + n
  | 0, t, h => ⟨h,rfl⟩
  | n + 1, t, h => by
    rw [topoRounds]
    cases found : firstReady p.nsteps t with
    | none => exact ⟨h,found,by omega⟩
    | some pick =>
      have length : (release p t pick).order.length = t.order.length + 1 := by
        rw [release,List.length_append]
        rfl
      have rest := roundsCounted n (h.release (h.pick found))
      dsimp only
      split at rest
      · exact ⟨rest.1,by rw [rest.2,length]; omega⟩
      · exact ⟨rest.1,rest.2.1,by have := rest.2.2; omega⟩

/-! ### The order -/

/-- Everything is put out when as many steps are put out as there are. -/
theorem Counted.full (h : Counted p t) (length : t.order.length = p.nsteps) : t.order.Perm (List.range p.nsteps) := by
  have sub : t.order.Subperm (List.range p.nsteps) :=
    List.subperm_of_subset h.greedy.nodup fun i mem => List.mem_range.mpr (Finset.mem_range.mp (h.greedy.inside i mem))
  exact sub.perm_of_length_le (by rw [List.length_range,length])

/-- The result is every step once, each the least of those whose dependencies all stand before it; there is none exactly when
some step depends on itself through others. -/
theorem topoOrderExact (p : Pipeline) (errsz : Nat) :
    (∀ order, pipelineTopoOrder p errsz = .ok order → order.Perm (List.range p.nsteps) ∧
      (∀ i j, DependsOn p i j → ∃ pre mid post, order = pre ++ j :: mid ++ i :: post) ∧
      ∀ pre i post, order = pre ++ i :: post → IsLeast {i | i < p.nsteps ∧ i ∉ pre ∧ ∀ j, DependsOn p i j → j ∈ pre} i) ∧
    ((∃ msg, pipelineTopoOrder p errsz = .error msg) ↔ ∃ i, Relation.TransGen (DependsOn p) i i) := by
  have run := roundsCounted p.nsteps (startCounted p)
  have start : (topoStart p).order.length = 0 := rfl
  rw [pipelineTopoOrder]
  cases result : topoRounds p p.nsteps (topoStart p) with
  | ok t =>
    rw [result] at run
    obtain ⟨h,length⟩ := run
    have perm := h.full (by omega)
    have places : ∀ pre i post, t.order = pre ++ i :: post → IsLeast {i | i < p.nsteps ∧ i ∉ pre ∧ ∀ j, DependsOn p i j → j ∈ pre} i := by
      intro pre i post is
      have least := h.greedy.least pre i post is
      refine ⟨⟨Finset.mem_range.mp least.1.1,least.1.2⟩,fun j ready => least.2 ⟨Finset.mem_range.mpr ready.1,ready.2⟩⟩
    refine ⟨?_,⟨fun ⟨_,is⟩ => (nomatch is),fun ⟨i,loop⟩ => ?_⟩⟩
    · rintro _ ⟨⟩
      refine ⟨perm,fun i j needs => ?_,places⟩
      obtain ⟨pre,post,split⟩ := List.append_of_mem (perm.mem_iff.mpr (List.mem_range.mpr needs.1))
      obtain ⟨before,mid,inner⟩ := List.append_of_mem ((places pre i post split).1.2.2 j needs)
      exact ⟨before,mid,post,by rw [split,inner]⟩
    · exact absurd loop (h.greedy.acyclic (fun i mem => perm.mem_iff.mpr (List.mem_range.mpr (Finset.mem_range.mp mem)))
        (fun i j needs => Finset.mem_range.mpr needs.1) i)
  | error t =>
    rw [result] at run
    obtain ⟨h,none_,length⟩ := run
    refine ⟨fun _ is => (nomatch is),⟨fun _ => ?_,fun _ => ⟨_,rfl⟩⟩⟩
    refine stuck (h.none none_) ?_ fun i j needs => Finset.mem_range.mpr needs.2.1
    by_contra all
    have cover : List.range p.nsteps ⊆ t.order := fun i mem => by
      by_contra out
      exact all ⟨i,Finset.mem_range.mpr (List.mem_range.mp mem),out⟩
    have := (List.subperm_of_subset List.nodup_range cover).length_le
    rw [List.length_range] at this
    omega

end Napastak.Scheduler
