import Napastak.ParamLiteral

/-! When the expansion of a template is scanned as the template with a literal for every placeholder. -/
namespace Napastak.Sql
open Query Munch Codec

section
variable {F : Type} [JsonDoubles F]

/-- The byte that follows in the expansion. -/
def nextByte (params : List (Bytes × JVal F)) : List (Seg F) → Option UInt8
  | [] => none
  | .hole name :: _ => (jsonGet params name).bind fun v => (literal v).head?
  | seg :: _ => seg.source.head?

def nameByte (c : UInt8) : Bool := wordChar c || c = 58

/-- No colon of the text stands before a name, pairs apart. -/
def quiet : Bytes → Bool
  | [] => true
  | [_] => true
  | c :: d :: s => if c ≠ 58 then quiet (d :: s) else if d = 58 then quiet s else !wordChar d && quiet (d :: s)

/-- No placeholder reaches from one text into the next. -/
def Parted (x r : Bytes) : Prop := ∀ z y, x.getLast? = some z → r.head? = some y → ¬ (nameByte z = true ∧ nameByte y = true)

/-- A stretch of the template keeps its tokens in the expansion: it has no placeholder inside, or is a comment that stays
one; what comes behind a lexeme does not join it; a placeholder has a short name and a plain value. -/
def SegFits (params : List (Bytes × JVal F)) (rest : List (Seg F)) : Seg F → Prop
  | .colons _ => True
  | .hole name => name.length ≤ 127 ∧ ∃ v, jsonGet params name = some v ∧ Plain v ∧
      ∀ y, nextByte params rest = some y → Apart F (unsigned (literal v)) y
  | .text x ts => (58 ∈ x → Parted x (rest.flatMap Seg.source)) ∧
      (quiet x = true ∧
          (∀ name segs, rest = .hole name :: segs → ∀ y, nextByte params rest = some y → Apart F x y) ∨
        ts = [] ∧ ∃ x' go, namedParamsExpand params x = some x' ∧ Lexeme F x' [] go ∧
          ∀ y, nextByte params rest = some y → go y = false)

def Fits (params : List (Bytes × JVal F)) : List (Seg F) → Prop
  | [] => True
  | seg :: rest => SegFits params rest seg ∧ Fits params rest

/-! ### The expander over two texts -/

theorem expandStepShorter (params : List (Bytes × JVal F)) (c : UInt8) (s : Bytes) :
    (expandStep params (c :: s)).2.length < (c :: s).length := by
  rw [expandStep]
  split
  · exact Nat.lt_succ_self _
  · split
    · simp only [List.length_drop,List.length_cons]
      omega
    · simp only
      split
      · exact Nat.lt_succ_self _
      · simp only [List.length_drop,List.length_cons]
        omega

variable {params : List (Bytes × JVal F)}

theorem expandNil : namedParamsExpand params [] = some [] := rfl

theorem expandCons (c : UInt8) (s : Bytes) : namedParamsExpand params (c :: s) =
    (expandStep params (c :: s)).1.bind fun o => (namedParamsExpand params (expandStep params (c :: s)).2).map (o ++ ·) := by
  rw [namedParamsExpand,scanStep (expandStepShorter params),mapMCons,namedParamsExpand]
  cases (expandStep params (c :: s)).1 with
  | none => rfl
  | some o =>
    cases (scan (expandStep params) (expandStep params (c :: s)).2).mapM id with
    | none => rfl
    | some os => simp

theorem stepOther {c : UInt8} (other : c ≠ 58) (s : Bytes) : expandStep params (c :: s) = (some [c],s) := by
  rw [expandStep,if_pos other]

theorem stepPair (s : Bytes) : expandStep params (58 :: 58 :: s) = (some [58,58],s) := rfl

theorem stepAlone {s : Bytes} (head : s.head? ≠ some 58) (none_ : (s.takeWhile wordChar).take 127 = []) :
    expandStep params (58 :: s) = (some [58],s) := by
  rw [expandStep,if_neg (by simp),if_neg head]
  simp only [if_pos none_]

theorem stepName {s : Bytes} (head : s.head? ≠ some 58) (some_ : (s.takeWhile wordChar).take 127 ≠ []) :
    expandStep params (58 :: s) = ((jsonGet params ((s.takeWhile wordChar).take 127)).map literal,
      s.drop ((s.takeWhile wordChar).take 127).length) := by
  rw [expandStep,if_neg (by simp),if_neg head]
  simp only [if_neg some_]

theorem partedBehind {x r : Bytes} {c : UInt8} (parted : Parted (c :: x) r) (k : Nat) : Parted (x.drop k) r := by
  intro z y hz hy
  refine parted z y ?_ hy
  rw [List.getLast?_drop] at hz
  split at hz
  · cases hz
  · rw [List.getLast?_cons,hz]
    rfl

/-- A name ends before the next text. -/
theorem nameParted {x r : Bytes} (some_ : x ≠ []) (parted : Parted x r) : (x ++ r).takeWhile wordChar = x.takeWhile wordChar := by
  rw [List.takeWhile_append]
  split
  · rename_i all
    obtain ⟨z,hz⟩ := Option.ne_none_iff_exists'.mp (mt List.getLast?_eq_none_iff.mp some_)
    have whole : x.takeWhile wordChar = x := (List.takeWhile_sublist _).eq_of_length all
    have last : wordChar z = true := List.all_eq_true.mp (whole ▸ List.all_takeWhile) z (List.mem_of_getLast? hz)
    have none_ : r.takeWhile wordChar = [] := by
      cases r with
      | nil => rfl
      | cons y r =>
        refine List.takeWhile_cons_of_neg fun word => parted z y hz rfl ?_
        exact ⟨by rw [nameByte,last]; rfl,by rw [nameByte,word]; rfl⟩
    rw [none_,List.append_nil,whole]
  · rfl

theorem expandStepAppend {c : UInt8} {x r : Bytes} (parted : Parted (c :: x) r) :
    ∃ k, (expandStep params (c :: x)).2 = x.drop k ∧
      expandStep params (c :: (x ++ r)) = ((expandStep params (c :: x)).1,x.drop k ++ r) := by
  by_cases colon : c = 58
  · subst colon
    cases x with
    | nil =>
      have next : ∀ y, r.head? = some y → nameByte y = false := fun y hy =>
        Bool.eq_false_iff.mpr fun mine => parted 58 y rfl hy ⟨by decide,mine⟩
      have head : r.head? ≠ some 58 := fun e => absurd (next 58 e) (by decide)
      have none_ : r.takeWhile wordChar = [] := by
        cases r with
        | nil => rfl
        | cons y r =>
          refine List.takeWhile_cons_of_neg fun word => ?_
          have := next y rfl
          simp [nameByte,word] at this
      exact ⟨0,rfl,by rw [List.nil_append,stepAlone head (by rw [none_]; rfl)]; rfl⟩
    | cons d x =>
      by_cases pair : d = 58
      · subst pair
        exact ⟨1,rfl,rfl⟩
      · have head : ∀ t : Bytes, (d :: t).head? ≠ some 58 := fun t e => pair (Option.some.inj e)
        have same := nameParted (List.cons_ne_nil d x) (partedBehind parted 0)
        by_cases none_ : ((d :: x).takeWhile wordChar).take 127 = []
        · refine ⟨0,by rw [stepAlone (head x) none_]; rfl,?_⟩
          rw [stepAlone (head x) none_,List.cons_append,stepAlone (head _) (by rw [← List.cons_append,same]; exact none_)]
          rfl
        · have short : ((d :: x).takeWhile wordChar).length ≤ (d :: x).length := (List.takeWhile_sublist _).length_le
          refine ⟨_,by rw [stepName (head x) none_],?_⟩
          rw [stepName (head x) none_,List.cons_append,stepName (head _) (by rw [← List.cons_append,same]; exact none_),
            ← List.cons_append,same,List.drop_append_of_le_length (by rw [List.length_take]; omega)]
  · exact ⟨0,by rw [stepOther colon]; rfl,by rw [stepOther colon,stepOther colon]; rfl⟩

/-- Over two texts that no placeholder joins, the expander works on each. -/
theorem expandAppend {x r : Bytes} (parted : Parted x r) : namedParamsExpand params (x ++ r) =
    (namedParamsExpand params x).bind fun a => (namedParamsExpand params r).map (a ++ ·) := by
  induction h : x.length using Nat.strongRecOn generalizing x with
  | _ n ih =>
    cases x with
    | nil =>
      rw [List.nil_append,expandNil]
      cases namedParamsExpand params r <;> rfl
    | cons c x =>
      obtain ⟨k,left,step⟩ := @expandStepAppend _ _ params _ _ _ parted
      rw [List.cons_append,expandCons,expandCons,step,left,
        ih (x.drop k).length (by rw [← h,List.length_drop,List.length_cons]; omega) (partedBehind parted k) rfl]
      cases (expandStep params (c :: x)).1 <;> cases namedParamsExpand params (x.drop k) <;>
        cases namedParamsExpand params r <;> simp

/-- A text without colons is copied. -/
theorem expandPlain {x : Bytes} (plain : 58 ∉ x) (r : Bytes) :
    namedParamsExpand params (x ++ r) = (namedParamsExpand params r).map (x ++ ·) := by
  induction x with
  | nil =>
    rw [List.nil_append]
    cases namedParamsExpand params r <;> rfl
  | cons c x ih =>
    rw [List.cons_append,expandCons,stepOther (fun e => plain (e ▸ List.mem_cons_self ..)),
      ih fun e => plain (List.mem_cons_of_mem _ e)]
    cases namedParamsExpand params r <;> rfl

/-! ### Segments -/

theorem segStepSource (c : UInt8) (s : Bytes) : (segStep F (c :: s)).1.source ++ (segStep F (c :: s)).2 = c :: s ∧
    (segStep F (c :: s)).1.source ≠ [] := by
  rw [segStep]
  split
  · obtain ⟨x,ne,is,taken⟩ := lexStepSplit (F := F) c s
    simp only [Seg.source,taken]
    exact ⟨is.symm,ne⟩
  · rename_i colon
    have colon : c = 58 := Decidable.not_not.mp colon
    split
    · rename_i head
      cases s with
      | nil => cases head
      | cons d s =>
        cases head
        exact ⟨by rw [colon]; rfl,List.cons_ne_nil _ _⟩
    · split
      · exact ⟨by rw [colon]; rfl,List.cons_ne_nil _ _⟩
      · refine ⟨?_,List.cons_ne_nil _ _⟩
        rw [colon,Seg.source,List.cons_append,List.takeWhile_append_dropWhile]

theorem segStepShorter (c : UInt8) (s : Bytes) : (segStep F (c :: s)).2.length < (c :: s).length :=
  sourceShorter segStepSource c s

theorem segmentsStep (c : UInt8) (s : Bytes) :
    segments F (c :: s) = (segStep F (c :: s)).1 :: segments F (segStep F (c :: s)).2 := scanStep segStepShorter c s

theorem segmentsSource (s : Bytes) : (segments F s).flatMap Seg.source = s := scanSource segStepSource s

theorem expandSelf {x : Bytes} (plain : 58 ∉ x) : namedParamsExpand params x = some x := by
  have := @expandPlain _ _ params _ plain []
  rw [List.append_nil,expandNil,Option.map_some,List.append_nil] at this
  exact this

theorem expandText {x r : Bytes} (parted : 58 ∈ x → Parted x r) : namedParamsExpand params (x ++ r) =
    (namedParamsExpand params x).bind fun a => (namedParamsExpand params r).map (a ++ ·) := by
  by_cases colon : 58 ∈ x
  · exact expandAppend (parted colon)
  · rw [expandPlain colon,expandSelf colon]
    rfl

theorem expandHead {c : UInt8} (other : c ≠ 58) {x x' : Bytes} (h : namedParamsExpand params (c :: x) = some x') :
    x'.head? = some c := by
  rw [expandCons,stepOther other] at h
  obtain ⟨o,ho,h⟩ := Option.bind_eq_some_iff.mp h
  cases ho
  obtain ⟨rest,_,rfl⟩ := Option.map_eq_some_iff.mp h
  rfl

theorem strayColon (r : Bytes) : lexAll F (58 :: r) = tok F .error :: lexAll F r :=
  lexAllAppend (x := [58]) (.stray (by unfold Stray; decide)) fun y hy => rfl

theorem quietExpand : ∀ {x : Bytes}, quiet x = true → namedParamsExpand params x = some x
  | [], _ => rfl
  | [c], _ => by
    by_cases colon : c = 58
    · rw [colon]
      rfl
    · rw [expandCons,stepOther colon]
      rfl
  | c :: d :: s, h => by
    rw [quiet] at h
    by_cases colon : c = 58
    · rw [if_neg (by simp [colon])] at h
      subst colon
      by_cases pair : d = 58
      · rw [if_pos pair] at h
        rw [pair,expandCons,stepPair,quietExpand h]
        rfl
      · rw [if_neg pair,Bool.and_eq_true,Bool.not_eq_true'] at h
        have none_ : (d :: s).takeWhile wordChar = [] := List.takeWhile_cons_of_neg (by rw [h.1]; exact Bool.false_ne_true)
        have head : (d :: s).head? ≠ some 58 := fun e => pair (Option.some.inj e)
        rw [expandCons,stepAlone head (by rw [none_]; rfl),quietExpand h.2]
        rfl
    · rw [if_pos colon] at h
      rw [expandCons,stepOther colon,quietExpand h]
      rfl

/-- What the induction over a template gives for each of its ends. -/
structure Rendered (params : List (Bytes × JVal F)) (s out : Bytes) : Prop where
  expands : namedParamsExpand params s = some out
  filled : Filled params (segments F s) (lexAll F out)
  head : out.head? = nextByte params (segments F s)
  short : s.length ≤ 1 → out = s

/-- The byte behind a text is the one behind it in the template, or the first of a literal. -/
theorem nextCases {r : Bytes} {y : UInt8} (h : nextByte params (segments F r) = some y) :
    r.head? = some y ∨ ∃ name segs, segments F r = .hole name :: segs := by
  cases r with
  | nil => cases h
  | cons d r =>
    rw [segmentsStep] at h ⊢
    obtain ⟨is,ne⟩ := segStepSource (F := F) d r
    have first : (segStep F (d :: r)).1.source.head? = some d := by
      cases source : (segStep F (d :: r)).1.source with
      | nil => exact absurd source ne
      | cons e t =>
        rw [source] at is
        rw [List.head?_cons,(List.cons.inj is).1]
    cases seg : (segStep F (d :: r)).1 with
    | hole name => exact .inr ⟨name,_,rfl⟩
    | text x ts =>
      rw [seg] at h first
      exact .inl (first.symm.trans h)
    | colons x =>
      rw [seg] at h first
      exact .inl (first.symm.trans h)

theorem renderText {c : UInt8} (other : c ≠ 58) {s out : Bytes} {x : Bytes} {ts : List (Token F)} {r : Bytes}
    (seg : segStep F (c :: s) = (.text x ts,r)) (scanned : Scanned F (c :: s) ts r) (lexed : lexStep F (c :: s) = (ts,r))
    (fits : SegFits params (segments F r) (.text x ts)) (rest : Rendered params r out) :
    ∃ out, Rendered params (c :: s) out := by
  obtain ⟨parted,kept⟩ := fits
  obtain ⟨is,ne⟩ := segStepSource (F := F) c s
  rw [seg] at is ne
  have whole : x ++ r = c :: s := is
  have ne : x ≠ [] := ne
  rw [segmentsSource] at parted
  have split := @expandText _ _ params _ _ parted
  rw [whole,rest.expands] at split
  have first : x.head? = some c := by
    cases x with
    | nil => exact absurd rfl ne
    | cons d x => rw [List.head?_cons,(List.cons.inj whole).1]
  have segs : segments F (c :: s) = .text x ts :: segments F r := by rw [segmentsStep,seg]
  have single : s = [] → namedParamsExpand params x = some x := fun e => expandSelf fun colon => by
    have mem : (58 : UInt8) ∈ x ++ r := List.mem_append_left _ colon
    rw [whole,e] at mem
    exact other (List.mem_singleton.mp mem).symm
  have one : ∀ x', namedParamsExpand params x = some x' → (c :: s).length ≤ 1 → x' ++ out = c :: s := fun x' hx le => by
    have none_ : s = [] := List.eq_nil_of_length_eq_zero (by rw [List.length_cons] at le; omega)
    rw [single none_] at hx
    have last : r.length ≤ 1 := by
      have := congrArg List.length whole
      rw [List.length_append] at this
      omega
    rw [← Option.some.inj hx,rest.short last,whole]
  rcases kept with ⟨still,apart⟩ | ⟨none_,x',go,comment,lexeme,stop⟩
  · have same := @quietExpand _ _ params _ still
    refine ⟨x ++ out,by rw [split,same]; rfl,?_,?_,one x same⟩
    · rw [segs]
      have tokens : lexAll F (x ++ out) = ts ++ lexAll F out := by
        rcases scanned with ⟨x0,go,is0,lexeme,stop⟩ | ⟨_,_,_,short⟩
        · rw [← List.append_cancel_right (whole.trans is0)] at lexeme
          refine lexAllAppend lexeme fun y hy => ?_
          rw [rest.head] at hy
          rcases nextCases hy with here | ⟨name,tail,hole⟩
          · exact stop y here
          · exact apart name tail hole y hy ts go lexeme
        · rw [rest.short short,whole,lexAllStep,lexed]
      rw [tokens]
      exact .text rest.filled
    · rw [segs,List.head?_append_of_ne_nil _ ne]
      rfl
  · refine ⟨x' ++ out,by rw [split,comment]; rfl,?_,?_,one x' comment⟩
    · rw [segs,lexAllAppend lexeme (fun y hy => stop y (rest.head ▸ hy)),none_]
      exact .text rest.filled
    · have kept : x'.head? = some c := by
        cases x with
        | nil => cases first
        | cons d x =>
          cases first
          exact expandHead other comment
      rw [segs,List.head?_append_of_ne_nil _ (lexemeSome lexeme),kept,← first]
      rfl

theorem renderHole (lawful : LawfulDoubles F) {s out : Bytes} (head : s.head? ≠ some 58) (some_ : s.takeWhile wordChar ≠ [])
    (fits : SegFits params (segments F (s.dropWhile wordChar)) (.hole (s.takeWhile wordChar)))
    (rest : Rendered params (s.dropWhile wordChar) out) : ∃ out, Rendered params (58 :: s) out := by
  obtain ⟨short,v,known,plain,apart⟩ := fits
  have name : (s.takeWhile wordChar).take 127 = s.takeWhile wordChar := List.take_of_length_le short
  have behind : s.drop (s.takeWhile wordChar).length = s.dropWhile wordChar := by
    have cut : s.takeWhile wordChar ++ s.dropWhile wordChar = s := List.takeWhile_append_dropWhile
    exact (congrArg (List.drop _) cut.symm).trans (List.drop_left ..)
  have segs : segments F (58 :: s) = .hole (s.takeWhile wordChar) :: segments F (s.dropWhile wordChar) := by
    rw [segmentsStep,segStep,if_neg (by simp),if_neg head,if_neg some_]
  obtain ⟨ts,tokens,value⟩ := literalLexes lawful plain (r := out) fun y hy => apart y (rest.head ▸ hy)
  refine ⟨literal v ++ out,?_,?_,?_,fun le => ?_⟩
  · rw [expandCons,stepName head (name.symm ▸ some_),name,known,behind,rest.expands]
    rfl
  · rw [segs,tokens]
    exact .hole known value rest.filled
  · obtain ⟨⟨sign,body,_,_,split,_,lexeme,_⟩⟩ := plainScans lawful plain
    have ne : literal v ≠ [] := by
      rw [split]
      exact List.append_ne_nil_of_right_ne_nil _ (lexemeSome lexeme)
    rw [segs,List.head?_append_of_ne_nil _ ne,nextByte,known]
    rfl
  · cases s with
    | nil => exact absurd rfl some_
    | cons d s =>
      rw [List.length_cons,List.length_cons] at le
      omega

/-- The induction over the template, from its end. -/
theorem fitsRendered (lawful : LawfulDoubles F) {s : Bytes} (fits : Fits params (segments F s)) :
    ∃ out, Rendered params s out := by
  induction h : s.length using Nat.strongRecOn generalizing s with
  | _ n ih =>
    cases s with
    | nil => exact ⟨[],rfl,.nil,rfl,fun _ => rfl⟩
    | cons c s =>
      rw [segmentsStep] at fits
      obtain ⟨here,behind⟩ := fits
      obtain ⟨out,rest⟩ := ih _ (by rw [← h]; exact segStepShorter c s) behind rfl
      by_cases other : c = 58
      · subst other
        by_cases pair : s.head? = some 58
        · cases s with
          | nil => cases pair
          | cons d s =>
            cases pair
            have step : segStep F (58 :: 58 :: s) = (.colons [58,58],s) := rfl
            rw [step] at rest
            refine ⟨58 :: 58 :: out,?_,?_,by rw [segmentsStep,step]; rfl,fun le => ?_⟩
            · rw [expandCons,stepPair,rest.expands]
              rfl
            · rw [segmentsStep,step,strayColon,strayColon]
              exact .colons rest.filled
            · rw [List.length_cons,List.length_cons] at le
              omega
        · by_cases alone : s.takeWhile wordChar = []
          · have step : segStep F (58 :: s) = (.colons [58],s) := by
              rw [segStep,if_neg (by simp),if_neg pair,if_pos alone]
            rw [step] at rest
            refine ⟨58 :: out,?_,?_,by rw [segmentsStep,step]; rfl,fun le => ?_⟩
            · rw [expandCons,stepAlone pair (by rw [alone]; rfl),rest.expands]
              rfl
            · rw [segmentsStep,step,strayColon]
              exact .colons rest.filled
            · have last : s.length ≤ 1 := Nat.le_of_succ_le (by rw [List.length_cons] at le; exact le)
              rw [rest.short last]
          · have step : segStep F (58 :: s) = (.hole (s.takeWhile wordChar),s.dropWhile wordChar) := by
              rw [segStep,if_neg (by simp),if_neg pair,if_neg alone]
            rw [step] at here rest
            exact renderHole lawful pair alone here rest
      · have step : segStep F (c :: s) = (.text ((c :: s).take ((c :: s).length - (lexStep F (c :: s)).2.length))
            (lexStep F (c :: s)).1,(lexStep F (c :: s)).2) := by rw [segStep,if_pos other]
        rw [step] at here rest
        exact renderText other step (lexStepSound c s) rfl here rest

end

section
variable {F : Type} [JsonDoubles F] {params : List (Bytes × JVal F)} {segs : List (Seg F)} {ts : List (Token F)}

theorem filledText {x : Bytes} {us : List (Token F)} (h : Filled params (.text x us :: segs) ts) :
    ∃ rest, ts = us ++ rest ∧ Filled params segs rest := by
  cases h with
  | text rest => exact ⟨_,rfl,rest⟩

theorem filledHole {name : Bytes} (h : Filled params (.hole name :: segs) ts) :
    ∃ v us rest, jsonGet params name = some v ∧ LiteralOf v us ∧ ts = us ++ rest ∧ Filled params segs rest := by
  cases h with
  | hole known value rest => exact ⟨_,_,_,known,value,rfl,rest⟩

end

/-- Two values can make up for each other: the first turns its minus into a comment, the second, in a comment, writes
both tokens anew. So the condition is not necessary. -/
theorem valuesCompensate :
    @Renders Int64 wholeNumbers [(ascii "n",.number (-5)),(ascii "s",.string (ascii "\n- -5 --"))] (ascii "-:n --:s") ∧
      ¬ @Fits Int64 wholeNumbers [(ascii "n",.number (-5)),(ascii "s",.string (ascii "\n- -5 --"))]
        (@segments Int64 wholeNumbers.toDoubles (ascii "-:n --:s")) := by
  let _ : JsonDoubles Int64 := wholeNumbers
  refine ⟨⟨ascii "--5 --'\n- -5 --'",by rfl,?_⟩,fun fits => ?_⟩
  · show @Filled Int64 _ _ [.text [45] [⟨.minus,[],0,0⟩],.hole (ascii "n"),.text [32] [],.text (ascii "--:s") []]
      ([⟨.minus,[],0,0⟩] ++ ([⟨.minus,[],0,0⟩,⟨.numInt,ascii "5",5,0⟩] ++ ([] ++ ([] ++ []))))
    exact .text (.hole rfl (.inr ⟨_,_,5,-5,rfl,rfl,by rfl,rfl,by decide⟩) (.text (.text .nil)))
  · obtain ⟨⟨_,quiet_ | ⟨none_,_⟩⟩,_⟩ := fits
    · exact absurd (quiet_.2 (ascii "n") _ rfl 45 rfl _ _ (.op rfl)) (by decide)
    · cases none_

end Napastak.Sql
