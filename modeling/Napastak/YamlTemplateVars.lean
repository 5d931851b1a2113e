import Napastak.YamlTemplate

/-! What the table for `vars:` and the caller's variables finds, beside what the lines say. -/
namespace Napastak.YamlTemplate
open Store (cstr cstrSelf)
open Table

/-- A line with a colon: a remark, or a name and its value, both in full. -/
structure Row where
  remark : Bool
  name : Bytes
  value : Bytes
  deriving DecidableEq, Repr

def Row.stored (r : Row) : Bytes × Bytes := (r.name.take (maxVal - 1),r.value.take (maxVal - 1))

def stored (rows : List Row) : List (Bytes × Bytes) := (rows.take maxVars).map Row.stored

def varsOf (rows : List Row) : List (Bytes × Bytes) := (rows.filter fun r => ¬r.remark).map fun r => (r.name,r.value)

/-- What can be the name in a token. -/
def Word (n : Bytes) : Prop := ¬[125,125] <:+: n ∧ 0 ∉ n

instance (n : Bytes) : Decidable (Word n) := inferInstanceAs (Decidable (_ ∧ _))

def kept (rows : List Row) (new : List (Bytes × Bytes)) (name : Bytes) : Option Bytes :=
  (puts maxVars (stored rows) new).lookup (name.take (maxVal - 1))

/-- The caller's value, else the one in the text. -/
def wanted (rows : List Row) (new : List (Bytes × Bytes)) (name : Bytes) : Option Bytes := (last new name).or ((varsOf rows).lookup name)

/-- There is room for every variable and every name and value, and no remark has a name that a token can hold. -/
structure Fits (rows : List Row) (new : List (Bytes × Bytes)) : Prop where
  entries : ∀ r ∈ rows.drop maxVars, r.remark = false → ¬Word r.name
  callers : ∀ n ∈ (news (names (stored rows)) new).drop (maxVars - (stored rows).length), ¬Word n
  short : ∀ n ∈ names (stored rows) ++ names new, Word n → n.length < maxVal - 1
  values : ∀ r ∈ rows.take maxVars, r.remark = false → Word r.name → r.value.length < maxVal ∨ r.name ∈ names new
  remarks : ∀ r ∈ rows.take maxVars, r.remark = true → Word r.name → r.name ∈ names new

theorem wordPart {n t : Bytes} (word : Word t) (part : n <:+: t) : Word n :=
  ⟨fun h => word.1 (h.trans part),fun h => word.2 (part.subset h)⟩

theorem wordTake {t : Bytes} (word : Word t) (k : Nat) : Word (t.take k) := wordPart word (List.take_prefix k t).isInfix

theorem namesVarsOf {rows : List Row} {n : Bytes} : n ∈ names (varsOf rows) ↔ ∃ r ∈ rows, r.remark = false ∧ r.name = n := by
  simp [names,varsOf,and_assoc]

theorem namesStored {rows : List Row} {n : Bytes} : n ∈ names (stored rows) ↔ ∃ r ∈ rows.take maxVars, r.name.take (maxVal - 1) = n := by
  simp only [names,stored,Row.stored,List.map_map,List.mem_map,Function.comp_def]

theorem varsSplit (rows : List Row) : varsOf rows = varsOf (rows.take maxVars) ++ varsOf (rows.drop maxVars) := by
  rw [varsOf,varsOf,varsOf,← List.map_append,← List.filter_append,List.take_append_drop]

theorem takeShort {s t : Bytes} {k : Nat} (is : s.take k = t) (short : t.length < k) : s = t := by
  have length := congrArg List.length is
  rw [List.length_take] at length
  rw [← is,List.take_of_length_le (by omega)]

theorem lastSome {new : List (Bytes × Bytes)} {n : Bytes} (mem : n ∈ names new) : ∃ v, last new n = some v :=
  Option.ne_none_iff_exists'.mp fun h => lastNone.mp h mem

section
variable {rows : List Row} {new : List (Bytes × Bytes)}

theorem keptIs (name : Bytes) : kept rows new name =
    if name.take (maxVal - 1) ∈ names (stored rows) ∨
        name.take (maxVal - 1) ∈ (news (names (stored rows)) new).take (maxVars - (stored rows).length) then
      (last new (name.take (maxVal - 1))).or ((stored rows).lookup (name.take (maxVal - 1))) else none := putsLookup ..

/-- A name that is in the table or comes from the caller. -/
theorem keptNames {n : Bytes} (is : (kept rows new n).isSome) : n.take (maxVal - 1) ∈ names (stored rows) ++ names new := by
  rw [keptIs] at is
  split at is
  · rename_i at_
    obtain at_ | at_ := at_
    · exact List.mem_append_left _ at_
    · exact List.mem_append_right _ ((newsAre ..).mp (List.mem_of_mem_take at_)).1
  · cases is

theorem wantedNames {n : Bytes} : (wanted rows new n).isSome ↔ n ∈ names new ∨ n ∈ names (varsOf rows) := by
  rw [wanted,Option.isSome_or,Bool.or_eq_true,← Option.ne_none_iff_isSome,← Option.ne_none_iff_isSome,Ne,Ne,lastNone,lookupNone,not_not,not_not]

/-- Short names find the value the line gives. -/
theorem storedLookup {rs : List Row} {t : Bytes} (short : t.length < maxVal - 1) (plain : ∀ r ∈ rs, r.name = t → r.remark = false ∧ r.value.length < maxVal) :
    (rs.map Row.stored).lookup t = (varsOf rs).lookup t := by
  induction rs with
  | nil => rfl
  | cons r rs ih =>
    have later := ih fun r mem => plain r (List.mem_cons_of_mem _ mem)
    rw [List.map_cons,lookupCons,later,Row.stored]
    by_cases same : r.name = t
    · obtain ⟨entry,value⟩ := plain r List.mem_cons_self same
      have name : r.name.take (maxVal - 1) = t := by rw [same,List.take_of_length_le (by omega)]
      have whole : r.value.take (maxVal - 1) = r.value := List.take_of_length_le (by omega)
      rw [if_pos name.symm,varsOf,List.filter_cons_of_pos (by simp [entry]),List.map_cons,lookupCons,if_pos same.symm,whole]
    · have other : t ≠ r.name.take (maxVal - 1) := fun h => same (takeShort h.symm short)
      rw [if_neg other]
      by_cases entry : r.remark = false
      · rw [varsOf,varsOf,List.filter_cons_of_pos (by simp [entry]),List.map_cons,lookupCons,if_neg (Ne.symm same)]
      · rw [varsOf,varsOf,List.filter_cons_of_neg (by simpa using entry)]

theorem fitsLong (fits : Fits rows new) {t : Bytes} (word : Word t) (long : maxVal - 1 ≤ t.length) :
    kept rows new t = none ∧ wanted rows new t = none := by
  have cut : (t.take (maxVal - 1)).length = maxVal - 1 := by rw [List.length_take]; omega
  constructor
  · by_contra some_
    have := fits.short _ (keptNames (Option.ne_none_iff_isSome.mp some_)) (wordTake word _)
    omega
  · by_contra some_
    obtain mem | mem := wantedNames.mp (Option.ne_none_iff_isSome.mp some_)
    · have := fits.short t (List.mem_append_right _ mem) word
      omega
    · obtain ⟨r,at_,entry,rfl⟩ := namesVarsOf.mp mem
      rw [← List.take_append_drop maxVars rows,List.mem_append] at at_
      obtain mem | mem := at_
      · have := fits.short _ (List.mem_append_left _ (namesStored.mpr ⟨r,mem,rfl⟩)) (wordTake word _)
        omega
      · exact fits.entries r mem entry word

theorem fitsShort (fits : Fits rows new) {t : Bytes} (word : Word t) (short : t.length < maxVal - 1) : kept rows new t = wanted rows new t := by
  rw [keptIs,List.take_of_length_le (by omega),wanted]
  by_cases given : t ∈ names new
  · obtain ⟨v,value⟩ := lastSome given
    have at_ : t ∈ names (stored rows) ∨ t ∈ (news (names (stored rows)) new).take (maxVars - (stored rows).length) := by
      refine or_iff_not_imp_left.mpr fun out => ?_
      have mem := (newsAre _ new t).mpr ⟨given,out⟩
      rw [← List.take_append_drop (maxVars - (stored rows).length) (news _ new),List.mem_append] at mem
      exact mem.resolve_right fun above => fits.callers t above word
    rw [if_pos at_,value]
    rfl
  · have others : (varsOf (rows.drop maxVars)).lookup t = none := by
      refine lookupNone.mpr fun mem => ?_
      obtain ⟨r,above,entry,rfl⟩ := namesVarsOf.mp mem
      exact fits.entries r above entry word
    have same : (stored rows).lookup t = (varsOf (rows.take maxVars)).lookup t := by
      refine storedLookup short fun r mem is => ?_
      have entry : r.remark = false := by
        by_contra remark
        exact given (is ▸ fits.remarks r mem (by simpa using remark) (is ▸ word))
      exact ⟨entry,(fits.values r mem entry (is ▸ word)).resolve_right (is ▸ given)⟩
    rw [lastNone.mpr given,Option.none_or,Option.none_or,varsSplit,List.lookup_append,others,Option.or_none,← same]
    split
    · rfl
    · rename_i out
      exact (lookupNone.mpr (not_or.mp out).1).symm

theorem someBound (ns : List Bytes) : ∃ b, ∀ n ∈ ns, n.length ≤ b := by
  induction ns with
  | nil => exact ⟨0,fun n mem => by cases mem⟩
  | cons m ns ih =>
    obtain ⟨b,all⟩ := ih
    refine ⟨max m.length b,fun n mem => ?_⟩
    obtain rfl | mem := List.mem_cons.mp mem
    · exact le_max_left ..
    · exact (all n mem).trans (le_max_right ..)

/-- A name with letters behind it is still a name. -/
theorem wordGrow {n : Bytes} (word : Word n) (k : Nat) : Word (n ++ List.replicate k 97) := by
  induction k with
  | zero => simpa using word
  | succ k ih =>
    rw [List.replicate_succ',← List.append_assoc]
    refine ⟨fun h => ?_,fun h => ?_⟩
    · obtain ends | within := List.infix_concat_iff.mp h
      · obtain ⟨s,same⟩ := ends
        have := congrArg List.getLast? same
        simp at this
      · exact ih.1 within
    · rw [List.mem_append] at h
      exact h.elim ih.2 (by decide)

/-- The table says what it should of every name that a token can hold. -/
def Right (rows : List Row) (new : List (Bytes × Bytes)) : Prop := ∀ t, Word t → kept rows new t = wanted rows new t

/-- A name as long as the room for it is also the name of longer ones. -/
theorem rightShort (right : Right rows new) {n : Bytes} (mem : n ∈ names (stored rows) ++ names new) (word : Word n) : n.length < maxVal - 1 := by
  by_contra long
  obtain ⟨b,bound⟩ := someBound (names new ++ names (varsOf rows))
  have missing : kept rows new n = none := by
    have length : (n.take (maxVal - 1)).length = maxVal - 1 := by rw [List.length_take]; omega
    have cut : (n.take (maxVal - 1) ++ List.replicate (b + 1) 97).take (maxVal - 1) = n.take (maxVal - 1) := by
      rw [List.take_append_of_le_length (by omega),List.take_of_length_le (by omega)]
    have unknown : wanted rows new (n.take (maxVal - 1) ++ List.replicate (b + 1) 97) = none := by
      by_contra some_
      have := bound _ (List.mem_append.mpr (wantedNames.mp (Option.ne_none_iff_isSome.mp some_)))
      rw [List.length_append,List.length_replicate] at this
      omega
    have longer := right _ (wordGrow (wordTake word (maxVal - 1)) (b + 1))
    rw [unknown,kept,cut] at longer
    exact longer
  obtain mem | mem := List.mem_append.mp mem
  · obtain ⟨r,at_,rfl⟩ := namesStored.mp mem
    rw [keptIs,List.take_take,min_self,if_pos (.inl mem)] at missing
    exact lookupNone.mp (Option.or_eq_none_iff.mp missing).2 mem
  · rw [right n word] at missing
    exact absurd (wantedNames.mpr (.inl mem)) (by rw [missing]; decide)

theorem rightCallers (right : Right rows new) {n : Bytes} (above : n ∈ (news (names (stored rows)) new).drop (maxVars - (stored rows).length)) :
    ¬Word n := by
  intro word
  obtain ⟨given,out⟩ := (newsAre ..).mp (List.mem_of_mem_drop above)
  have short := rightShort right (List.mem_append_right _ given) word
  have is := right n word
  have later : n ∉ (news (names (stored rows)) new).take (maxVars - (stored rows).length) :=
    fun h => List.disjoint_take_drop (newsOnce ..) le_rfl h above
  rw [keptIs,List.take_of_length_le (by omega),if_neg (not_or.mpr ⟨out,later⟩)] at is
  exact absurd (wantedNames.mpr (.inl given)) (by rw [← is]; decide)

variable (once : (names (varsOf rows)).Nodup) (apart : ∀ r ∈ rows, ∀ r' ∈ rows, r.remark = true → r'.remark = false → r.name ≠ r'.name)
include once apart

theorem rightRows (right : Right rows new) {r : Row} (above : r ∈ rows.drop maxVars) (entry : r.remark = false) : ¬Word r.name := by
  intro word
  have all : (stored rows).length = maxVars := by
    have length := List.length_pos_of_mem above
    rw [List.length_drop] at length
    rw [stored,List.length_map,List.length_take]
    omega
  have some_ : (kept rows new r.name).isSome := by
    rw [right _ word]
    exact wantedNames.mpr (.inr (namesVarsOf.mpr ⟨r,List.mem_of_mem_drop above,entry,rfl⟩))
  have at_ : r.name.take (maxVal - 1) ∈ names (stored rows) := by
    rw [keptIs,all,Nat.sub_self,List.take_zero] at some_
    by_contra out
    rw [if_neg (by simpa using out)] at some_
    cases some_
  have short := rightShort right (List.mem_append_left _ at_) (wordTake word _)
  obtain ⟨r',mem,same⟩ := namesStored.mp at_
  have whole : r'.name = r.name := by
    rw [takeShort same short]
    exact List.take_of_length_le (by rw [List.length_take] at short; omega)
  by_cases remark : r'.remark = true
  · exact apart r' (List.mem_of_mem_take mem) r (List.mem_of_mem_drop above) remark entry whole
  · rw [varsSplit,names,List.map_append,← names,← names] at once
    have left : r.name ∈ names (varsOf (rows.take maxVars)) := namesVarsOf.mpr ⟨r',mem,by simpa using remark,whole⟩
    have right : r.name ∈ names (varsOf (rows.drop maxVars)) := namesVarsOf.mpr ⟨r,above,entry,rfl⟩
    exact (List.nodup_append.mp once).2.2 _ left _ right rfl

omit apart in
theorem rightValues (right : Right rows new) {r : Row} (mem : r ∈ rows.take maxVars) (entry : r.remark = false) (word : Word r.name) :
    r.value.length < maxVal ∨ r.name ∈ names new := by
  by_contra bad
  obtain ⟨long,out⟩ := not_or.mp bad
  have at_ : r.name.take (maxVal - 1) ∈ names (stored rows) := namesStored.mpr ⟨r,mem,rfl⟩
  have is := right r.name word
  have pair : (r.name,r.value) ∈ varsOf rows := List.mem_map.mpr ⟨r,by simp [List.mem_of_mem_take mem,entry],rfl⟩
  have value : (varsOf rows).lookup r.name = some r.value := lookupOnce once pair
  rw [wanted,lastNone.mpr out,Option.none_or,value] at is
  have short := rightShort right (List.mem_append_left _ at_) (wordTake word _)
  have all : r.name.take (maxVal - 1) = r.name := List.take_of_length_le (by rw [List.length_take] at short; omega)
  rw [keptIs,all,if_pos (.inl (all ▸ at_)),lastNone.mpr out,Option.none_or] at is
  obtain ⟨r',-,same⟩ := List.mem_map.mp (lookupMem is)
  have length := congrArg List.length (congrArg Prod.snd same)
  simp only [Row.stored,List.length_take,maxVal] at length long
  omega

omit once in
theorem rightRemarks (right : Right rows new) {r : Row} (mem : r ∈ rows.take maxVars) (remark : r.remark = true) (word : Word r.name) :
    r.name ∈ names new := by
  by_contra out
  have at_ : r.name.take (maxVal - 1) ∈ names (stored rows) := namesStored.mpr ⟨r,mem,rfl⟩
  have is := right r.name word
  have missing : wanted rows new r.name = none := by
    by_contra some_
    obtain given | named := wantedNames.mp (Option.ne_none_iff_isSome.mp some_)
    · exact out given
    · obtain ⟨r',at_',entry,same⟩ := namesVarsOf.mp named
      exact apart r (List.mem_of_mem_take mem) r' at_' remark entry same.symm
  rw [missing,keptIs,if_pos (.inl at_)] at is
  exact lookupNone.mp (Option.or_eq_none_iff.mp is).2 at_

theorem rightIff : Right rows new ↔ Fits rows new where
  mp right := {
    entries := fun _ above entry => rightRows once apart right above entry
    callers := fun _ above => rightCallers right above
    short := fun _ mem word => rightShort right mem word
    values := fun _ mem entry word => rightValues once right mem entry word
    remarks := fun _ mem remark word => rightRemarks apart right mem remark word }
  mpr fits t word := by
    by_cases short : t.length < maxVal - 1
    · exact fitsShort fits word short
    · obtain ⟨code,text⟩ := fitsLong fits word (by omega)
      rw [code,text]

end

end Napastak.YamlTemplate
