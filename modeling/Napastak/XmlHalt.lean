import Napastak.Xml

/-! Where `xml_parse` comes to an end: the loop over attributes stands still at a `?`, which neither a name goes over nor the loop
itself, and every other round of every loop takes a byte. -/
namespace Napastak.Xml
open Store (cstr)

/-! ### What the readers leave -/

section
variable {s t : Bytes} {c : UInt8}

theorem skipLess (s : Bytes) : (skipWs s).length ≤ s.length := (List.dropWhile_sublist _).length_le

theorem nameLess (s : Bytes) : (readName s).2.length ≤ s.length := (List.dropWhile_sublist _).length_le

theorem behindLess (c d : UInt8) (s : Bytes) : (behindChar c (d :: s)).length ≤ s.length := by
  have := (List.dropWhile_sublist (l := d :: s) (· ≠ c)).length_le
  rw [List.length_cons] at this
  rw [behindChar,List.length_drop]
  omega

theorem behindAll (c : UInt8) (s : Bytes) : (behindChar c s).length ≤ s.length := by
  have := (List.dropWhile_sublist (l := s) (· ≠ c)).length_le
  rw [behindChar,List.length_drop]
  omega

theorem foundLess {needle before rest : Bytes} (found : findStr needle s = some (before,rest)) : rest.length ≤ s.length := by
  induction s generalizing before with
  | nil => cases found
  | cons c s ih =>
    rw [findStr] at found
    split at found
    · cases found
      simp
    · obtain ⟨⟨b,r⟩,later,same⟩ := Option.map_eq_some_iff.mp found
      cases same
      exact (ih later).trans (Nat.le_succ _)

theorem behindStrLess (needle s : Bytes) : (behindStr needle s).length ≤ s.length := by
  unfold behindStr
  cases found : findStr needle s with
  | none => exact Nat.zero_le _
  | some cut => exact foundLess found

theorem textLess (stop : UInt8) (k : Nat) (s : Bytes) : (readText stop k s).2.length ≤ s.length := by
  induction s generalizing k with
  | nil => cases k <;> simp [readText]
  | cons c s ih =>
    cases k with
    | succ k => exact (ih k).trans (Nat.le_succ _)
    | zero =>
      rw [readText]
      split
      · exact le_rfl
      split
      · exact (ih _).trans (Nat.le_succ _)
      · exact (ih 0).trans (Nat.le_succ _)

/-- Text that does not stop at once takes a byte. -/
theorem textTakes {stop : UInt8} (other : c ≠ stop) (t : Bytes) : (readText stop 0 (c :: t)).2.length ≤ t.length := by
  rw [readText,if_neg other]
  split <;> exact textLess ..

theorem skipHead (at_ : skipWs s = c :: t) : wsByte c = false ∧ t.length < s.length := by
  have less := skipLess s
  rw [at_,List.length_cons] at less
  have rest : s.dropWhile wsByte = c :: t := at_
  have head := List.head_dropWhile_not (l := s) wsByte (by rw [rest]; simp)
  simp only [rest,List.head_cons] at head
  exact ⟨head,less⟩

theorem skipNone (no : wsByte c = false) : skipWs (c :: t) = c :: t := List.dropWhile_cons_of_neg (by simp [no])

/-- What is left behind an attribute, with a value and without. -/
theorem attrCases (s : Bytes) : ¬(skipWs (readName s).2).head? = some 61 ∧ (readAttr s).2 = skipWs (readName s).2 ∨
    (skipWs (readName s).2).head? = some 61 ∧ (readAttr s).2.length ≤ (skipWs (readName s).2).tail.length := by
  rw [readAttr]
  split
  · rename_i equals
    refine .inr ⟨equals,?_⟩
    have value := skipLess (skipWs (readName s).2).tail
    split
    · exact Nat.zero_le _
    · rename_i q t at_
      rw [at_,List.length_cons] at value
      split
      · have := textLess q 0 t
        simp only [readQuoted,List.length_tail] at this ⊢
        simp only [List.length_tail] at value
        omega
      · exact value
  · rename_i other
    exact .inl ⟨other,rfl⟩

/-- A round that is not at a `?` takes a byte. -/
theorem attrTakes (ws : wsByte c = false) (gt : c ≠ 62) (slash : c ≠ 47) (mark : c ≠ 63) : (readAttr (c :: t)).2.length ≤ t.length := by
  by_cases equals : c = 61
  · have name : (readName (c :: t)).2 = c :: t := List.dropWhile_cons_of_neg (by simp [nameByte,equals])
    rcases attrCases (c :: t) with ⟨other,_⟩ | ⟨_,less⟩
    · rw [name,skipNone ws,equals] at other
      exact absurd rfl other
    · rwa [name,skipNone ws] at less
  · have name : nameByte c = true := by simp [nameByte,ws,gt,slash,mark,equals]
    have rest : (readName (c :: t)).2.length ≤ t.length := by
      rw [readName,List.dropWhile_cons_of_pos name]
      exact (List.dropWhile_sublist _).length_le
    have less := (skipLess _).trans rest
    rcases attrCases (c :: t) with ⟨_,same⟩ | ⟨_,left⟩
    · rwa [same]
    · rw [List.length_tail] at left
      omega

/-- At a `?` it takes none. -/
theorem attrStill (t : Bytes) : readAttr (63 :: t) = (⟨[],[]⟩,63 :: t) := by
  have name : readName (63 :: t) = ([],63 :: t) := rfl
  simp [readAttr,name,skipNone (show wsByte 63 = false from rfl)]

end

/-! ### A flat pass -/

/-- Inside a tag, or between the tags of an element. -/
inductive Place
  | tag | content
  deriving DecidableEq, Repr

inductive Step
  | still
  | done
  | on (place : Place) (open_ : Nat) (s : Bytes)

/-- What comes behind the next attribute or the end of the tag; the pass stands still at a `?`. -/
def tagStep (open_ : Nat) (s : Bytes) : Step :=
  match skipWs s with
  | [] => .done
  | c :: t =>
    if c = 62 then .on .content (open_ + 1) t
    else if c = 47 then .on .content open_ (if t.head? = some 62 then t.tail else t)
    else if c = 63 then .still
    else .on .tag open_ (readAttr (c :: t)).2

/-- Where `open_` elements are open around this one. -/
def contentStep (open_ : Nat) : Bytes → Step
  | [] => .done
  | c :: t =>
    if c = 60 then
      if t.head? = some 47 then .on .content open_ (behindChar 62 (c :: t))
      else if cdataStart.isPrefixOf (c :: t) then .on .content (open_ + 1) (behindStr (ascii "]]>") (t.drop 8))
      else if commentStart.isPrefixOf (c :: t) then .on .content (open_ + 1) (behindStr (ascii "-->") (t.drop 3))
      else if t.head? = some 63 ∨ t.head? = some 33 then .on .content (open_ + 1) (behindChar 62 (c :: t))
      else .on .tag (open_ + 1) (readName t).2
    else .on .content (open_ + 1) (readText 60 0 (c :: t)).2

def step : Place → Nat → Bytes → Step
  | .tag, open_, s => tagStep open_ s
  | .content, 0, _ => .done
  | .content, open_ + 1, s => contentStep open_ s

def goesOn : Nat → Place → Nat → Bytes → Bool
  | 0, _, _, _ => true
  | k + 1, place, open_, s =>
    match step place open_ s with
    | .still => false
    | .done => true
    | .on place open_ s => goesOn k place open_ s

/-- The pass takes a byte in every step. -/
def passes (place : Place) (open_ : Nat) (s : Bytes) : Bool := goesOn (s.length + 1) place open_ s

section
variable {place place' : Place} {o o' : Nat} {s t s' : Bytes} {c : UInt8}

theorem tagLess (on_ : tagStep o s = .on place' o' s') : s'.length < s.length := by
  unfold tagStep at on_
  split at on_
  · cases on_
  · rename_i c t at_
    obtain ⟨ws,less⟩ := skipHead at_
    split at on_
    · cases on_
      exact less
    split at on_
    · cases on_
      split
      · rw [List.length_tail]
        omega
      · exact less
    split at on_
    · cases on_
    · rename_i gt slash mark
      cases on_
      exact (attrTakes ws gt slash mark).trans_lt less

theorem contentLess (on_ : contentStep o s = .on place' o' s') : s'.length < s.length := by
  cases s with
  | nil => cases on_
  | cons c t =>
    have cdata := behindStrLess (ascii "]]>") (t.drop 8)
    have comment := behindStrLess (ascii "-->") (t.drop 3)
    have tag := behindLess 62 c t
    have name := nameLess t
    rw [List.length_drop] at cdata comment
    rw [contentStep] at on_
    rw [List.length_cons]
    split at on_
    · split at on_
      · cases on_; omega
      split at on_
      · cases on_; omega
      split at on_
      · cases on_; omega
      split at on_ <;> (cases on_; omega)
    · rename_i other
      cases on_
      exact Nat.lt_succ_of_le (textTakes other t)

theorem stepLess (on_ : step place o s = .on place' o' s') : s'.length < s.length := by
  cases place with
  | tag => exact tagLess on_
  | content =>
    cases o with
    | zero => cases on_
    | succ o => exact contentLess on_

theorem goesMore {k m : Nat} (enough : s.length < k) (more : s.length < m) : goesOn k place o s = goesOn m place o s := by
  induction k generalizing m place o s with
  | zero => omega
  | succ k ih =>
    obtain ⟨m,rfl⟩ : ∃ j, m = j + 1 := ⟨m - 1,by omega⟩
    rw [goesOn,goesOn]
    cases on_ : step place o s with
    | still => rfl
    | done => rfl
    | on place' o' s' =>
      have less := stepLess on_
      exact ih (by omega) (by omega)

theorem passesOn (on_ : step place o s = .on place' o' s') : passes place o s = passes place' o' s' := by
  rw [passes,goesOn,on_]
  exact goesMore (stepLess on_) (Nat.lt_succ_self _)

theorem passesDone (done : step place o s = .done) : passes place o s = true := by rw [passes,goesOn,done]

theorem passesStill (still : step place o s = .still) : passes place o s = false := by rw [passes,goesOn,still]

theorem passesEmpty : passes .content o [] = true := by cases o <;> exact passesDone rfl

/-! ### The parser and the pass -/

theorem attrStands (at_ : skipWs s = 63 :: t) (n : Nat) : attrLoop n s = none := by
  induction n generalizing s with
  | zero => rfl
  | succ n ih =>
    have mark : (63 : UInt8) ≠ 62 ∧ (63 : UInt8) ≠ 47 := by decide
    simp only [attrLoop,at_,if_neg mark.1,if_neg mark.2,attrStill]
    rw [ih (skipNone rfl)]
    rfl

theorem attrPasses {n : Nat} {attrs : List XmlAttr} {content : Bool} (ended : attrLoop n s = some (attrs,content,s')) :
    passes .tag o s = passes .content (if content then o + 1 else o) s' ∧ s'.length + (if content then 1 else 0) ≤ s.length := by
  induction n generalizing s attrs with
  | zero => cases ended
  | succ n ih =>
    have whole := ended
    rw [attrLoop] at ended
    split at ended
    · rename_i none_
      cases ended
      have done : step .tag o s = .done := by rw [step,tagStep,none_]
      exact ⟨by rw [passesDone done,passesEmpty],Nat.zero_le _⟩
    rename_i c t at_
    obtain ⟨ws,less⟩ := skipHead at_
    split at ended
    · rename_i gt
      cases ended
      have on_ : step .tag o s = .on .content (o + 1) s' := by rw [step,tagStep,at_]; exact if_pos gt
      exact ⟨passesOn on_,less⟩
    rename_i gt
    split at ended
    · rename_i slash
      cases ended
      have on_ : step .tag o s = .on .content o (if t.head? = some 62 then t.tail else t) := by
        rw [step,tagStep,at_]
        exact (if_neg gt).trans (if_pos slash)
      have left := stepLess on_
      exact ⟨passesOn on_,by simpa using left.le⟩
    rename_i slash
    have mark : c ≠ 63 := by
      rintro rfl
      rw [attrStands at_] at whole
      cases whole
    obtain ⟨⟨others,more⟩,later,same⟩ := Option.map_eq_some_iff.mp ended
    cases same
    have on_ : step .tag o s = .on .tag o (readAttr (c :: t)).2 := by
      rw [step,tagStep,at_]
      exact (if_neg gt).trans ((if_neg slash).trans (if_neg mark))
    have left := stepLess on_
    obtain ⟨same,short⟩ := ih later
    exact ⟨(passesOn on_).trans same,by omega⟩

theorem attrEnds {n : Nat} (enough : s.length < n) (clear : passes .tag o s = true) : (attrLoop n s).isSome := by
  induction n generalizing s with
  | zero => omega
  | succ n ih =>
    rw [attrLoop]
    split
    · rfl
    rename_i c t at_
    split
    · rfl
    rename_i gt
    split
    · rfl
    rename_i slash
    by_cases mark : c = 63
    · have still : step .tag o s = .still := by
        rw [step,tagStep,at_]
        exact (if_neg gt).trans ((if_neg slash).trans (if_pos mark))
      rw [passesStill still] at clear
      cases clear
    · have on_ : step .tag o s = .on .tag o (readAttr (c :: t)).2 := by
        rw [step,tagStep,at_]
        exact (if_neg gt).trans ((if_neg slash).trans (if_neg mark))
      have left := stepLess on_
      rw [Option.isSome_map]
      exact ih (by omega) ((passesOn on_).symm.trans clear)

theorem cutRest (needle s : Bytes) : ((findStr needle s).getD (s,[])).2 = behindStr needle s := by
  unfold behindStr
  cases findStr needle s <;> rfl

theorem addNone (loop : Option (Bytes × List XmlNode × Bytes)) : loop = loop.map fun (text,rest) => ([] ++ text,rest) := by
  cases loop <;> rfl

/-- A round over content is an end tag, goes on behind something with no element in it, or reads an element. -/
theorem contentRound (c : UInt8) (t : Bytes) :
    (∃ r, (∀ o, step .content (o + 1) (c :: t) = .on .content o r) ∧ ∀ n, contentLoop (n + 1) (c :: t) = some ([],[],r)) ∨
    (∃ r before, (∀ o, step .content (o + 1) (c :: t) = .on .content (o + 1) r) ∧
      ∀ n, contentLoop (n + 1) (c :: t) = (contentLoop n r).map fun (text,rest) => (before ++ text,rest)) ∨
    ((∀ o, step .content (o + 1) (c :: t) = .on .tag (o + 1) (readName t).2) ∧
      ∀ n, contentLoop (n + 1) (c :: t) =
        (parseElement n t).bind fun (kid,s) => (contentLoop n s).map fun (text,kids,rest) => (text,kid :: kids,rest)) := by
  by_cases markup : c = 60
  · by_cases end_ : t.head? = some 47
    · exact .inl ⟨_,fun o => (if_pos markup).trans (if_pos end_),fun n => by rw [contentLoop,if_pos markup,if_pos end_]⟩
    by_cases cdata : cdataStart.isPrefixOf (c :: t)
    · refine .inr (.inl ⟨_,((findStr (ascii "]]>") (t.drop 8)).getD (t.drop 8,[])).1,
        fun o => (if_pos markup).trans ((if_neg end_).trans (if_pos cdata)),fun n => ?_⟩)
      rw [contentLoop,if_pos markup,if_neg end_,if_pos cdata,← cutRest]
    by_cases comment : commentStart.isPrefixOf (c :: t)
    · refine .inr (.inl ⟨_,[],fun o => (if_pos markup).trans ((if_neg end_).trans ((if_neg cdata).trans (if_pos comment))),fun n => ?_⟩)
      rw [contentLoop,if_pos markup,if_neg end_,if_neg cdata,if_pos comment]
      exact addNone _
    by_cases other : t.head? = some 63 ∨ t.head? = some 33
    · refine .inr (.inl ⟨_,[],
        fun o => (if_pos markup).trans ((if_neg end_).trans ((if_neg cdata).trans ((if_neg comment).trans (if_pos other)))),fun n => ?_⟩)
      rw [contentLoop,if_pos markup,if_neg end_,if_neg cdata,if_neg comment,if_pos other]
      exact addNone _
    · refine .inr (.inr ⟨fun o => (if_pos markup).trans ((if_neg end_).trans ((if_neg cdata).trans ((if_neg comment).trans (if_neg other)))),
        fun n => ?_⟩)
      rw [contentLoop,if_pos markup,if_neg end_,if_neg cdata,if_neg comment,if_neg other]
  · exact .inr (.inl ⟨_,_,fun o => if_neg markup,fun n => by rw [contentLoop,if_neg markup]⟩)

/-- What an element and the content of one leave is where the pass comes to. -/
theorem parsePasses (n : Nat) :
    (∀ {s rest node o}, parseElement n s = some (node,rest) →
      passes .tag o (readName s).2 = passes .content o rest ∧ rest.length ≤ s.length) ∧
    (∀ {s rest text kids o}, contentLoop n s = some (text,kids,rest) →
      passes .content (o + 1) s = passes .content o rest ∧ rest.length ≤ s.length) := by
  induction n with
  | zero => exact ⟨fun h => by simp [parseElement] at h,fun h => by simp [contentLoop] at h⟩
  | succ n ih =>
    obtain ⟨element,inside⟩ := ih
    constructor
    · intro s rest node o ended
      rw [parseElement] at ended
      obtain ⟨⟨attrs,content,s'⟩,tag,ended⟩ := Option.bind_eq_some_iff.mp ended
      obtain ⟨same,less⟩ := attrPasses (o := o) tag
      have name := nameLess s
      cases content with
      | false =>
        cases ended
        exact ⟨same,by simp at less; omega⟩
      | true =>
        obtain ⟨⟨text,kids,left⟩,loop,last⟩ := Option.map_eq_some_iff.mp ended
        cases last
        obtain ⟨behind,short⟩ := inside (o := o) loop
        exact ⟨same.trans behind,by simp at less; omega⟩
    · intro s rest text kids o ended
      cases s with
      | nil =>
        cases ended
        exact ⟨by rw [passesEmpty,passesEmpty],le_rfl⟩
      | cons c t =>
        rcases contentRound c t with ⟨r,on_,round⟩ | ⟨r,before,on_,round⟩ | ⟨on_,round⟩
        all_goals
          have less := stepLess (on_ o)
          rw [round] at ended
        · cases ended
          exact ⟨passesOn (on_ o),less.le⟩
        · obtain ⟨⟨others,more⟩,later,same⟩ := Option.map_eq_some_iff.mp ended
          cases same
          obtain ⟨behind,short⟩ := inside (o := o) later
          exact ⟨(passesOn (on_ o)).trans behind,by omega⟩
        · obtain ⟨⟨kid,s'⟩,one,ended⟩ := Option.bind_eq_some_iff.mp ended
          obtain ⟨⟨others,more⟩,later,same⟩ := Option.map_eq_some_iff.mp ended
          cases same
          obtain ⟨first,kidShort⟩ := element (o := o + 1) one
          obtain ⟨behind,short⟩ := inside (o := o) later
          rw [List.length_cons]
          exact ⟨(passesOn (on_ o)).trans (first.trans behind),by omega⟩

theorem parseEnds (n : Nat) :
    (∀ {s o}, 2 * s.length + 1 < n → passes .tag o (readName s).2 = true → (parseElement n s).isSome) ∧
    (∀ {s o}, 2 * s.length < n → passes .content (o + 1) s = true → (contentLoop n s).isSome) := by
  induction n with
  | zero => exact ⟨fun h => by omega,fun h => by omega⟩
  | succ n ih =>
    obtain ⟨element,inside⟩ := ih
    constructor
    · intro s o enough clear
      have name := nameLess s
      obtain ⟨⟨attrs,content,s'⟩,tag⟩ := Option.isSome_iff_exists.mp (attrEnds (n := n) (by omega) clear)
      obtain ⟨same,less⟩ := attrPasses (o := o) tag
      rw [parseElement,tag,Option.bind_some]
      cases content with
      | false => rfl
      | true =>
        simp only [if_true] at same less ⊢
        rw [Option.isSome_map]
        exact inside (by omega) (same.symm.trans clear)
    · intro s o enough clear
      cases s with
      | nil => rfl
      | cons c t =>
        rw [List.length_cons] at enough
        rcases contentRound c t with ⟨r,on_,round⟩ | ⟨r,before,on_,round⟩ | ⟨on_,round⟩
        all_goals
          have less := stepLess (on_ o)
          rw [List.length_cons] at less
          rw [passesOn (on_ o)] at clear
          rw [round]
        · rfl
        · rw [Option.isSome_map]
          exact inside (by omega) clear
        · obtain ⟨⟨kid,s'⟩,one⟩ := Option.isSome_iff_exists.mp (element (by omega) clear)
          obtain ⟨same,short⟩ := (parsePasses n).1 (o := o + 1) one
          rw [one,Option.bind_some,Option.isSome_map]
          exact inside (by omega) (same.symm.trans clear)

/-! ### The root -/

theorem miscRound (s : Bytes) : (∀ n, skipMisc (n + 1) s = some (skipWs s)) ∨
    ∃ r : Bytes, r.length < s.length ∧ ∀ n, skipMisc (n + 1) s = skipMisc n r := by
  have skip := skipLess s
  by_cases comment : commentStart.isPrefixOf (skipWs s)
  · have long := (List.isPrefixOf_iff_prefix.mp comment).length_le
    have less := behindStrLess (ascii "-->") ((skipWs s).drop 4)
    rw [List.length_drop] at less
    exact .inr ⟨_,by rw [show commentStart.length = 4 from rfl] at long; omega,fun n => if_pos comment⟩
  have two {c : UInt8} (second : (skipWs s).tail.head? = some c) : 2 ≤ (skipWs s).length := by
    match skipWs s,second with
    | _ :: _ :: _,_ => simp
  by_cases instruction : (skipWs s).tail.head? = some 63
  · have less := behindStrLess (ascii "?>") ((skipWs s).drop 2)
    have long := two instruction
    rw [List.length_drop] at less
    exact .inr ⟨_,by omega,fun n => (if_neg comment).trans (if_pos instruction)⟩
  by_cases declaration : (skipWs s).tail.head? = some 33
  · have less := behindAll 62 ((skipWs s).drop 2)
    have long := two declaration
    rw [List.length_drop] at less
    exact .inr ⟨_,by omega,fun n => (if_neg comment).trans ((if_neg instruction).trans (if_pos declaration))⟩
  exact .inl fun n => (if_neg comment).trans ((if_neg instruction).trans (if_neg declaration))

theorem miscEnds {n : Nat} (enough : s.length < n) : (skipMisc n s).isSome := by
  induction n generalizing s with
  | zero => omega
  | succ n ih =>
    rcases miscRound s with last | ⟨r,less,round⟩
    · rw [last]
      rfl
    · rw [round]
      exact ih (by omega)

theorem miscLess {n : Nat} {r : Bytes} (ended : skipMisc n s = some r) : r.length ≤ s.length := by
  induction n generalizing s with
  | zero => cases ended
  | succ n ih =>
    rcases miscRound s with last | ⟨_,less,round⟩
    · rw [last] at ended
      cases ended
      exact skipLess s
    · rw [round] at ended
      exact (ih ended).trans less.le

theorem miscSame {n m : Nat} {r : Bytes} (ended : skipMisc n s = some r) (enough : s.length < m) : skipMisc m s = some r := by
  induction n generalizing s m with
  | zero => cases ended
  | succ n ih =>
    obtain ⟨m,rfl⟩ : ∃ j, m = j + 1 := ⟨m - 1,by omega⟩
    rcases miscRound s with last | ⟨_,less,round⟩
    · rwa [last] at ended ⊢
    · rw [round] at ended ⊢
      exact ih ended (by omega)

end

/-- The pass over the root element, if there is one, comes to its end or to that of the text. -/
def rootPasses (src : Bytes) : Bool :=
  match skipMisc (src.length + 1) src with
  | some (60 :: t) => passes .tag 0 (readName t).2
  | _ => true

/-- So many rounds are enough where the pass goes through. -/
theorem parseEnough {src : Bytes} (clear : rootPasses src = true) {n : Nat} (enough : 2 * src.length + 1 < n) :
    (xmlParse n src).isSome := by
  obtain ⟨s,misc⟩ := Option.isSome_iff_exists.mp (miscEnds (s := src) (n := n) (by omega))
  have less := miscLess misc
  rw [rootPasses,miscSame misc (Nat.lt_succ_self _)] at clear
  rw [xmlParse,misc,Option.bind_some]
  split
  · rename_i root
    cases s with
    | nil => cases root
    | cons c t =>
      cases Option.some.inj root
      rw [List.length_cons] at less
      rw [Option.isSome_map]
      exact (parseEnds n).1 (show 2 * t.length + 1 < n by omega) clear
  · rfl

theorem parsePassed {src : Bytes} {n : Nat} (ended : (xmlParse n src).isSome) : rootPasses src = true := by
  rw [xmlParse] at ended
  cases misc : skipMisc n src with
  | none => simp [misc] at ended
  | some s =>
    rw [rootPasses,miscSame misc (Nat.lt_succ_self _)]
    split
    · rename_i t at_
      cases Option.some.inj at_
      rw [misc,Option.bind_some,if_pos List.head?_cons,Option.isSome_map,List.tail_cons] at ended
      obtain ⟨⟨root,rest⟩,parsed⟩ := Option.isSome_iff_exists.mp ended
      rw [((parsePasses n).1 (o := 0) parsed).1]
      exact passesDone rfl
    · rfl

theorem haltsIff (src : Bytes) : (∃ n, (xmlParse n src).isSome) ↔ rootPasses src = true :=
  ⟨fun ⟨_,ended⟩ => parsePassed ended,fun clear => ⟨_,parseEnough clear (Nat.lt_succ_self _)⟩⟩

theorem haltsFails : ¬∀ src, ∃ n, (xmlParse n src).isSome := by
  intro all
  obtain ⟨n,ended⟩ := all (ascii "<a ?>")
  have clear := parsePassed ended
  revert clear
  decide

end Napastak.Xml
