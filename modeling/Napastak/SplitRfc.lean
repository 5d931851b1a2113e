import Napastak.Append

/-! Fields joined by any delimiter, bare or quoted, read back by the strict splitter. -/
namespace Napastak.Store

/-- Neither the delimiter nor a quote nor a line end. -/
def BareOf (delim : UInt8) (f : Bytes) : Prop := ∀ c ∈ f, c ≠ delim ∧ c ≠ quote ∧ c ≠ lf ∧ c ≠ cr

def joinWith (delim : UInt8) : List Bytes → Bytes
  | [] => []
  | [f] => f
  | f :: g :: fs => f ++ delim :: joinWith delim (g :: fs)

theorem joinComma : ∀ fs : List Bytes, joinCells fs = joinWith comma fs
  | [] => rfl
  | [_] => rfl
  | f :: g :: fs => by rw [joinCells,joinWith,joinComma (g :: fs)]

/-- How a field may be written under a delimiter. -/
inductive WrittenOf (delim : UInt8) : Bytes → Bytes × Bool → Prop
  | bare {v : Bytes} (h : BareOf delim v) : WrittenOf delim v (v,false)
  | quoted (v : Bytes) : WrittenOf delim (quoted v) (v,true)

/-- The end of the line, with its `\r` or without. -/
def EndsOf (delim : UInt8) (rest : Bytes) : Prop := rest = [] ∨ cr ≠ delim ∧ ∃ tail, rest = cr :: tail

/-- The end of the line, or the delimiter before the next field. -/
def StopsOf (delim : UInt8) (rest : Bytes) : Prop := EndsOf delim rest ∨ ∃ tail, rest = delim :: tail

/-- What ends a field, and what ends a line, whichever line end comes. -/
def HaltsOf (delim : UInt8) (rest : Bytes) : Prop := ∀ c ∈ rest.head?, c = delim ∨ c = cr ∨ c = lf

def LineEnds (delim : UInt8) (rest : Bytes) : Prop := ∀ c ∈ rest.head?, c ≠ delim ∧ (c = cr ∨ c = lf)

theorem endsLine {delim : UInt8} {rest : Bytes} (ends : EndsOf delim rest) : LineEnds delim rest := by
  rcases ends with rfl | ⟨other,tail,rfl⟩
  · nofun
  · rintro c ⟨⟩
    exact ⟨other,.inl rfl⟩

theorem delimHalts {delim : UInt8} (tail : Bytes) : HaltsOf delim (delim :: tail) := by
  rintro c ⟨⟩
  exact .inl rfl

theorem LineEnds.halts {delim : UInt8} {rest : Bytes} (ends : LineEnds delim rest) : HaltsOf delim rest :=
  fun c hc => .inr (ends c hc).2

theorem quotedFieldReads (v : Bytes) {rest : Bytes} (h : rest.head? ≠ some quote) :
    quotedField ((v.flatMap fun c => if c = quote then [quote,quote] else [c]) ++ quote :: rest) = some (v,rest) := by
  induction v with
  | nil =>
    cases rest with
    | nil => simp [quotedField]
    | cons d cs =>
      have : d ≠ quote := fun e => h (by rw [e]; rfl)
      simp [quotedField,this]
  | cons c cs ih =>
    by_cases hq : c = quote
    · subst hq
      simp only [List.flatMap_cons,if_true,List.cons_append,List.nil_append,quotedField,ih]
      rfl
    · simp only [List.flatMap_cons,if_neg hq,List.cons_append,List.nil_append]
      cases hr : (cs.flatMap fun c => if c = quote then [quote,quote] else [c]) ++ quote :: rest with
      | nil => simp at hr
      | cons d ds =>
        rw [hr] at ih
        simp [quotedField,hq,ih]

variable {delim : UInt8}

theorem plainFieldHalts {v : Bytes} (h : BareOf delim v) {rest : Bytes} (stop : HaltsOf delim rest) :
    plainField delim (v ++ rest) = some (v,rest) := by
  induction v with
  | nil =>
    cases rest with
    | nil => rfl
    | cons c rest => simp [plainField,stop c rfl]
  | cons c cs ih =>
    obtain ⟨h1,h2,h3,h4⟩ := h c List.mem_cons_self
    simp [plainField,h1,h2,h3,h4,ih fun d hd => h d (List.mem_cons_of_mem _ hd)]

theorem haltsNoQuote (plain : delim ≠ quote) {rest : Bytes} (stop : HaltsOf delim rest) : rest.head? ≠ some quote := fun is => by
  rcases stop quote is with e | e | e
  · exact plain e.symm
  · simp [quote,cr] at e
  · simp [quote,lf] at e

theorem rfcFieldHalts (plain : delim ≠ quote) {enc : Bytes} {p : Bytes × Bool} (w : WrittenOf delim enc p) {rest : Bytes}
    (stop : HaltsOf delim rest) : rfcField delim (enc ++ rest) = some (p,rest) := by
  have head := haltsNoQuote plain stop
  cases w with
  | bare h =>
    have read := plainFieldHalts h stop
    cases enc with
    | nil =>
      rw [List.nil_append] at read ⊢
      cases rest with
      | nil => rfl
      | cons c rest =>
        rw [rfcField,if_neg (fun is => head (by rw [is]; rfl)),read]
        rfl
    | cons c cs =>
      rw [List.cons_append] at read ⊢
      simp [rfcField,read,(h c List.mem_cons_self).2.1]
  | quoted v =>
    simp only [quoted,List.cons_append,List.append_assoc,List.nil_append,rfcField,if_true,quotedFieldReads v head]
    cases rest with
    | nil => rfl
    | cons c rest => simp [stop c rfl]

theorem rfcFieldStops (plain : delim ≠ quote) {enc : Bytes} {p : Bytes × Bool} (w : WrittenOf delim enc p) {rest : Bytes}
    (stop : StopsOf delim rest) : rfcField delim (enc ++ rest) = some (p,rest) := by
  refine rfcFieldHalts plain w ?_
  rcases stop with ends | ⟨tail,rfl⟩
  · exact (endsLine ends).halts
  · exact delimHalts tail

theorem splitRfcJoinedTo (plain : delim ≠ quote) {encs : List Bytes} {ps : List (Bytes × Bool)}
    (w : List.Forall₂ (WrittenOf delim) encs ps) (some_ : encs ≠ []) {fuel : Nat} (enough : encs.length ≤ fuel)
    {rest : Bytes} (ends : LineEnds delim rest) : splitRfcGo delim fuel (joinWith delim encs ++ rest) = some ps := by
  induction w generalizing fuel with
  | nil => exact absurd rfl some_
  | cons one others ih =>
    cases fuel with
    | zero => simp at enough
    | succ fuel =>
      cases others with
      | nil =>
        rw [joinWith,splitRfcGo,rfcFieldHalts plain one ends.halts]
        cases rest with
        | nil => rfl
        | cons c rest => simp [(ends c rfl).1]
      | cons two others =>
        rw [joinWith,List.append_assoc,List.cons_append,splitRfcGo,rfcFieldHalts plain one (delimHalts _)]
        simp [ih (by simp) (by simpa using enough)]

theorem splitRfcJoined (plain : delim ≠ quote) {encs : List Bytes} {ps : List (Bytes × Bool)}
    (w : List.Forall₂ (WrittenOf delim) encs ps) (some_ : encs ≠ []) {fuel : Nat} (enough : encs.length ≤ fuel)
    {rest : Bytes} (ends : EndsOf delim rest) : splitRfcGo delim fuel (joinWith delim encs ++ rest) = some ps :=
  splitRfcJoinedTo plain w some_ enough (endsLine ends)

theorem joinedLength (fs : List Bytes) : fs.length ≤ (joinWith delim fs).length + 1 := by
  induction fs with
  | nil => simp
  | cons a fs ih =>
    cases fs with
    | nil => simp
    | cons b fs => simp only [joinWith,List.length_append,List.length_cons] at ih ⊢; omega

theorem joinedMem {fs : List Bytes} {c : UInt8} (h : c ∈ joinWith delim fs) : c = delim ∨ ∃ f ∈ fs, c ∈ f := by
  induction fs with
  | nil => contradiction
  | cons a fs ih =>
    cases fs with
    | nil => exact .inr ⟨a,List.mem_cons_self,h⟩
    | cons b fs =>
      simp only [joinWith,List.mem_append,List.mem_cons] at h
      rcases h with h | h | h
      · exact .inr ⟨a,List.mem_cons_self,h⟩
      · exact .inl h
      · rcases ih h with e | ⟨f,hf,hc⟩
        · exact .inl e
        · exact .inr ⟨f,List.mem_cons_of_mem _ hf,hc⟩

end Napastak.Store
