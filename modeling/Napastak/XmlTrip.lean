import Napastak.XmlHalt
import Mathlib.Data.List.DropRight

/-! What `xml_parse` gives for a tree that is written out: the names, the attributes, the texts but for the white space around them
and the children, each in its order. -/
namespace Napastak.Xml
open Store (cstr cstrSelf)

/-! ### Trees and what is written for them -/

/-- A first `!` would open a declaration. -/
structure Name where
  bytes : Bytes
  some_ : bytes ≠ []
  plain : ∀ c ∈ bytes, nameByte c = true ∧ c ≠ 0
  element : bytes.head? ≠ some 33

structure Text where
  bytes : Bytes
  whole : 0 ∉ bytes

inductive Elem
  | mk (name : Name) (attrs : List (Name × Text)) (text : Text) (kids : List Elem)

def escape (c : UInt8) : Bytes :=
  if c = 38 then ascii "&amp;"
  else if c = 60 then ascii "&lt;"
  else if c = 62 then ascii "&gt;"
  else if c = 34 then ascii "&quot;"
  else if c = 39 then ascii "&apos;"
  else [c]

structure Gap where
  bytes : Bytes
  white : ∀ c ∈ bytes, wsByte c = true

inductive Attrs : List (Name × Text) → Bytes → Prop
  | nil : Attrs [] []
  | cons {as b} (name : Name) (value : Text) (before left right : Gap) (q : UInt8) (apart : before.bytes ≠ []) (quote : q = 34 ∨ q = 39)
      (more : Attrs as b) :
      Attrs ((name,value) :: as)
        (before.bytes ++ (name.bytes ++ (left.bytes ++ 61 :: (right.bytes ++ q :: (value.bytes.flatMap escape ++ q :: b)))))

def trim (s : Bytes) : Bytes := (s.dropWhile wsByte).rdropWhile wsByte

/-- Pieces of a text, comments and elements, in any order; an element without text and children may close itself. -/
inductive Contents : Bytes → List Elem → Bytes → Prop
  | nil : Contents [] [] []
  | text {all ks b} (t : Text) (more : Contents all ks b) : Contents (t.bytes ++ all) ks (t.bytes.flatMap escape ++ b)
  | comment {all ks b} (c : Bytes) (apart : ¬ascii "-->" <:+: c) (more : Contents all ks b) :
      Contents all ks (commentStart ++ (c ++ (ascii "-->" ++ b)))
  | closed {all ks b attrs a} (name : Name) (text : Text) (gap : Gap) (tag : Attrs attrs a) (blank : trim text.bytes = [])
      (more : Contents all ks b) :
      Contents all (.mk name attrs text [] :: ks) (60 :: (name.bytes ++ (a ++ (gap.bytes ++ 47 :: 62 :: b))))
  | element {all ks b attrs a inner kids c} (name : Name) (text : Text) (gap last : Gap) (tag : Attrs attrs a)
      (content : Contents inner kids c) (same : trim inner = trim text.bytes) (more : Contents all ks b) :
      Contents all (.mk name attrs text kids :: ks)
        (60 :: (name.bytes ++ (a ++ (gap.bytes ++ 62 :: (c ++ 60 :: 47 :: (name.bytes ++ (last.bytes ++ 62 :: b)))))))

/-- One element, with comments and white space around it. -/
def Document (e : Elem) (src : Bytes) : Prop := ∃ around, (∀ c ∈ around, wsByte c = true) ∧ Contents around [e] src

/-- The node has what the tree has. -/
inductive Same : Elem → XmlNode → Prop
  | mk {name attrs text kids text' kids'} (texts : trim text' = trim text.bytes) (each : List.Forall₂ Same kids kids') :
      Same (.mk name attrs text kids) (.mk name.bytes text' (attrs.map fun a => ⟨a.1.bytes,a.2.bytes⟩) kids')

/-! ### Bytes -/

section
variable {s rest : Bytes} {c : UInt8}

theorem skipGap (gap : Gap) (s : Bytes) : skipWs (gap.bytes ++ s) = skipWs s := List.dropWhile_append_of_pos gap.white

/-- What a name ends at. -/
def Stops (s : Bytes) : Prop := ∀ c, s.head? = some c → nameByte c = false

theorem stopsCons (no : nameByte c = false) : Stops (c :: s) := fun d hd => by cases hd; exact no

theorem stopsGap (gap : Gap) (stops : Stops s) : Stops (gap.bytes ++ s) := by
  obtain ⟨g,white⟩ := gap
  cases g with
  | nil => exact stops
  | cons c g => exact stopsCons (by simp [nameByte,white c List.mem_cons_self])

theorem readNameIs (name : Name) (stops : Stops s) : readName (name.bytes ++ s) = (name.bytes,s) := by
  have all : ∀ c ∈ name.bytes, nameByte c = true := fun c hc => (name.plain c hc).1
  have whole : 0 ∉ name.bytes := fun h => (name.plain 0 h).2 rfl
  have behind : s.takeWhile nameByte = [] ∧ s.dropWhile nameByte = s := by
    cases s with
    | nil => exact ⟨rfl,rfl⟩
    | cons c s => simp [stops c rfl]
  rw [readName,List.takeWhile_append_of_pos all,List.dropWhile_append_of_pos all,behind.1,behind.2,List.append_nil,cstrSelf whole]

theorem behindIs {d : UInt8} (b : Bytes) (none_ : ∀ c ∈ b, c ≠ d) (s : Bytes) : behindChar d (b ++ d :: s) = s := by
  rw [behindChar,List.dropWhile_append_of_pos (by simpa using none_),List.dropWhile_cons_of_neg (by simp)]
  rfl

theorem readSkip (stop : UInt8) (u s : Bytes) : readText stop u.length (u ++ s) = readText stop 0 s := by
  induction u with
  | nil => rfl
  | cons c u ih => exact ih

/-- An entity does not depend on what is behind its `;`. -/
theorem entityRead {e : Bytes} (near : e.length ≤ 11) (plain : ∀ c ∈ e, c ≠ 59) (s : Bytes) :
    decodeEntity (e ++ 59 :: s) = decodeEntity (e ++ [59]) := by
  have name (u : Bytes) : (e ++ 59 :: u).takeWhile (· ≠ 59) = e := by
    rw [List.takeWhile_append_of_pos (by simpa using plain),List.takeWhile_cons_of_neg (by simp),List.append_nil]
  have inside (u : Bytes) : ¬(e.length = (e ++ 59 :: u).length ∨ 11 < e.length) := by
    rw [List.length_append,List.length_cons]
    omega
  simp only [decodeEntity,name,if_neg (inside _)]

theorem readEntity {stop : UInt8} (amp : (38 : UInt8) ≠ stop) {e o : Bytes} (near : e.length ≤ 11) (plain : ∀ c ∈ e, c ≠ 59)
    (is : decodeEntity (e ++ [59]) = (o,e.length + 1)) (s : Bytes) :
    readText stop 0 (38 :: (e ++ 59 :: s)) = (o ++ (readText stop 0 s).1,(readText stop 0 s).2) := by
  have behind := readSkip stop (e ++ [59]) s
  rw [List.append_assoc,List.singleton_append,List.length_append,List.length_singleton] at behind
  rw [readText,if_neg amp,if_pos rfl,entityRead near plain,is,behind]

/-- Where a text ends that was written out. -/
def Ends (stop : UInt8) : Prop := stop = 60 ∨ stop = 34 ∨ stop = 39

theorem readEscaped {stop : UInt8} (ends : Ends stop) (c : UInt8) (s : Bytes) :
    readText stop 0 (escape c ++ s) = (c :: (readText stop 0 s).1,(readText stop 0 s).2) := by
  have amp : (38 : UInt8) ≠ stop := by rcases ends with rfl | rfl | rfl <;> decide
  rw [escape]
  split
  · subst c; exact readEntity amp (e := ascii "amp") (o := [38]) (by decide) (by simp [ascii]) (by decide) s
  split
  · subst c; exact readEntity amp (e := ascii "lt") (o := [60]) (by decide) (by simp [ascii]) (by decide) s
  split
  · subst c; exact readEntity amp (e := ascii "gt") (o := [62]) (by decide) (by simp [ascii]) (by decide) s
  split
  · subst c; exact readEntity amp (e := ascii "quot") (o := [34]) (by decide) (by simp [ascii]) (by decide) s
  split
  · subst c; exact readEntity amp (e := ascii "apos") (o := [39]) (by decide) (by simp [ascii]) (by decide) s
  · rename_i noAmp lt gt quot apos
    have plain : c ≠ stop := by rcases ends with rfl | rfl | rfl <;> assumption
    rw [List.singleton_append,readText,if_neg plain,if_neg noAmp]

theorem readWritten {stop : UInt8} (ends : Ends stop) (t s : Bytes) :
    readText stop 0 (t.flatMap escape ++ s) = (t ++ (readText stop 0 s).1,(readText stop 0 s).2) := by
  induction t with
  | nil => rfl
  | cons c t ih => rw [List.flatMap_cons,List.append_assoc,readEscaped ends,ih]; rfl

theorem escapeHead (c : UInt8) : ∃ d u, escape c = d :: u ∧ d ≠ 60 := by
  rw [escape]
  split
  · exact ⟨_,_,rfl,by decide⟩
  split
  · exact ⟨_,_,rfl,by decide⟩
  split
  · exact ⟨_,_,rfl,by decide⟩
  split
  · exact ⟨_,_,rfl,by decide⟩
  split
  · exact ⟨_,_,rfl,by decide⟩
  · exact ⟨_,_,rfl,by assumption⟩

theorem escapeWhite (white : wsByte c = true) : escape c = [c] := by
  have cases_ : c = 32 ∨ c = 9 ∨ c = 13 ∨ c = 10 := by simpa [wsByte] using white
  rcases cases_ with rfl | rfl | rfl | rfl <;> rfl

/-- No comment ends before its end: a `-->` that began in it and ended behind it would have a `-` for its last byte. -/
theorem commentIs {c : Bytes} (apart : ¬ascii "-->" <:+: c) (s : Bytes) : behindStr (ascii "-->") (c ++ (ascii "-->" ++ s)) = s := by
  induction c with
  | nil => rfl
  | cons d c ih =>
    have later : ¬ascii "-->" <:+: c := fun h => apart (h.trans (List.suffix_cons d c).isInfix)
    have here : ¬(ascii "-->").isPrefixOf (d :: (c ++ (ascii "-->" ++ s))) := by
      intro begins
      obtain ⟨u,whole⟩ := List.isPrefixOf_iff_prefix.mp begins
      match c,whole with
      | [],whole => cases whole
      | [x],whole => cases whole
      | x :: y :: c,whole =>
        cases whole
        exact apart ⟨[],c,rfl⟩
    have step : behindStr (ascii "-->") (d :: (c ++ (ascii "-->" ++ s))) = behindStr (ascii "-->") (c ++ (ascii "-->" ++ s)) := by
      rw [behindStr,behindStr,findStr,if_neg here,Option.map_map]
      rfl
    exact step.trans (ih later)

end

/-! ### Attributes -/

section
variable {s : Bytes} {attrs : List (Name × Text)} {a : Bytes}

theorem readValue {q : UInt8} (quote : q = 34 ∨ q = 39) (t : Text) (s : Bytes) : readQuoted q (t.bytes.flatMap escape ++ q :: s) = (t.bytes,s) := by
  have ends : Ends q := .inr quote
  have stop : readText q 0 (q :: s) = ([],q :: s) := by rw [readText,if_pos rfl]
  rw [readQuoted,readWritten ends,stop]
  exact Prod.ext (by rw [List.append_nil,cstrSelf t.whole]) rfl

theorem readAttrIs (name : Name) (value : Text) (left right : Gap) {q : UInt8} (quote : q = 34 ∨ q = 39) (s : Bytes) :
    readAttr (name.bytes ++ (left.bytes ++ 61 :: (right.bytes ++ q :: (value.bytes.flatMap escape ++ q :: s)))) =
      (⟨name.bytes,value.bytes⟩,s) := by
  have stops : Stops (left.bytes ++ 61 :: (right.bytes ++ q :: (value.bytes.flatMap escape ++ q :: s))) := stopsGap left (stopsCons rfl)
  have plain : wsByte q = false := by rcases quote with rfl | rfl <;> rfl
  rw [readAttr,readNameIs name stops]
  simp only [skipGap,skipNone (show wsByte 61 = false from rfl),List.head?_cons,if_true,List.tail_cons,skipNone plain,if_pos quote,
    readValue quote]

theorem nameHead (name : Name) : ∃ c u, name.bytes = c :: u ∧ nameByte c = true ∧ c ≠ 33 := by
  obtain ⟨bytes,some_,plain,element⟩ := name
  cases bytes with
  | nil => exact absurd rfl some_
  | cons c u => exact ⟨c,u,rfl,(plain c List.mem_cons_self).1,fun h => element (by rw [h]; rfl)⟩

theorem nameOther {c : UInt8} (name : nameByte c = true) : wsByte c = false ∧ c ≠ 62 ∧ c ≠ 47 ∧ c ≠ 61 ∧ c ≠ 63 := by
  simpa [nameByte] using name

/-- The attributes are read in so many rounds, and one more for what ends the tag. -/
theorem attrsRead (tag : Attrs attrs a) {n : Nat} {last : List XmlAttr × Bool × Bytes} (ended : attrLoop n s = some last) :
    ∃ m, attrLoop m (a ++ s) = some (attrs.map (fun a => ⟨a.1.bytes,a.2.bytes⟩) ++ last.1,last.2) := by
  induction tag with
  | nil => exact ⟨n,ended⟩
  | cons name value before left right q apart quote more ih =>
    rename_i as b
    obtain ⟨m,rest⟩ := ih
    obtain ⟨c,u,whole,head,_⟩ := nameHead name
    obtain ⟨ws,gt,slash,_,_⟩ := nameOther head
    refine ⟨m + 1,?_⟩
    have round := readAttrIs name value left right quote (b ++ s)
    simp only [List.append_assoc,List.cons_append] at round ⊢
    simp only [whole,List.cons_append] at round ⊢
    simp only [attrLoop,skipGap,skipNone ws,if_neg gt,if_neg slash,round,rest]
    rw [List.map_cons,whole]
    rfl

end
/-! ### Rounds -/

section
variable {s : Bytes}

theorem attrMore {n m : Nat} {r : List XmlAttr × Bool × Bytes} (ended : attrLoop n s = some r) (more : n ≤ m) : attrLoop m s = some r := by
  induction n generalizing s m r with
  | zero => cases ended
  | succ n ih =>
    obtain ⟨m,rfl⟩ : ∃ j, m = j + 1 := ⟨m - 1,by omega⟩
    rw [attrLoop] at ended ⊢
    split at ended
    · exact ended
    rename_i c t at_
    by_cases gt : c = 62
    · rwa [if_pos gt] at ended ⊢
    by_cases slash : c = 47
    · rwa [if_neg gt,if_pos slash] at ended ⊢
    rw [if_neg gt,if_neg slash] at ended ⊢
    obtain ⟨rest,later,same⟩ := Option.map_eq_some_iff.mp ended
    rw [ih later (by omega)]
    exact congrArg some same

theorem parseMore (n : Nat) :
    (∀ {s r}, parseElement n s = some r → parseElement (n + 1) s = some r) ∧
    (∀ {s r}, contentLoop n s = some r → contentLoop (n + 1) s = some r) := by
  induction n with
  | zero => exact ⟨fun h => by simp [parseElement] at h,fun h => by simp [contentLoop] at h⟩
  | succ n ih =>
    obtain ⟨element,inside⟩ := ih
    constructor
    · intro s r ended
      rw [parseElement] at ended
      obtain ⟨⟨attrs,content,s'⟩,tag,ended⟩ := Option.bind_eq_some_iff.mp ended
      rw [parseElement,attrMore tag (Nat.le_succ _),Option.bind_some]
      cases content with
      | false => exact ended
      | true =>
        obtain ⟨loop,later,same⟩ := Option.map_eq_some_iff.mp ended
        simp only [if_true,inside later]
        exact congrArg some same
    · intro s r ended
      cases s with
      | nil => exact ended
      | cons c t =>
        rcases contentRound c t with ⟨_,_,round⟩ | ⟨_,_,_,round⟩ | ⟨_,round⟩
        all_goals
          rw [round] at ended ⊢
        · exact ended
        · obtain ⟨loop,later,same⟩ := Option.map_eq_some_iff.mp ended
          rw [inside later]
          exact congrArg some same
        · obtain ⟨⟨kid,s'⟩,one,ended⟩ := Option.bind_eq_some_iff.mp ended
          obtain ⟨loop,later,same⟩ := Option.map_eq_some_iff.mp ended
          rw [element one,Option.bind_some]
          simp only [inside later]
          exact congrArg some same

theorem elementMore {n m : Nat} {r : XmlNode × Bytes} (ended : parseElement n s = some r) (more : n ≤ m) : parseElement m s = some r := by
  induction more with
  | refl => exact ended
  | step _ ih => exact (parseMore _).1 ih

theorem contentMore {n m : Nat} {r : Bytes × List XmlNode × Bytes} (ended : contentLoop n s = some r) (more : n ≤ m) :
    contentLoop m s = some r := by
  induction more with
  | refl => exact ended
  | step _ ih => exact (parseMore _).2 ih

/-! ### Contents -/

/-- What content gives in some number of rounds. -/
def Reads (s : Bytes) (r : Bytes × List XmlNode × Bytes) : Prop := ∃ n, contentLoop n s = some r

/-- The text at the beginning can be taken first. -/
theorem readsText {text : Bytes} {r : List XmlNode × Bytes} (reads : Reads s (text,r)) :
    ∃ behind, text = (readText 60 0 s).1 ++ behind ∧ Reads (readText 60 0 s).2 (behind,r) := by
  obtain ⟨n,ended⟩ := reads
  cases n with
  | zero => simp [contentLoop] at ended
  | succ n =>
    cases s with
    | nil => exact ⟨text,rfl,n + 1,ended⟩
    | cons c t =>
      by_cases markup : c = 60
      · rw [readText,if_pos markup]
        exact ⟨text,rfl,n + 1,ended⟩
      · rw [contentLoop,if_neg markup] at ended
        obtain ⟨⟨behind,more⟩,later,same⟩ := Option.map_eq_some_iff.mp ended
        cases same
        exact ⟨behind,rfl,n,later⟩

theorem readsWritten {text : Bytes} {r : List XmlNode × Bytes} (t : Bytes) (reads : Reads s (text,r)) :
    Reads (t.flatMap escape ++ s) (t ++ text,r) := by
  obtain ⟨behind,whole,n,later⟩ := readsText reads
  cases t with
  | nil => exact reads
  | cons c t =>
    have written := readWritten (.inl rfl : Ends 60) (c :: t) s
    obtain ⟨d,u,first,other⟩ := escapeHead c
    refine ⟨n + 1,?_⟩
    rw [List.flatMap_cons,first] at written ⊢
    rw [List.cons_append,List.cons_append] at written ⊢
    rw [contentLoop,if_neg other,written,later,Option.map_some,whole]
    simp

theorem readsComment {r : Bytes × List XmlNode × Bytes} {c : Bytes} (apart : ¬ascii "-->" <:+: c) (reads : Reads s r) :
    Reads (commentStart ++ (c ++ (ascii "-->" ++ s))) r := by
  obtain ⟨n,ended⟩ := reads
  refine ⟨n + 1,?_⟩
  have round : contentLoop (n + 1) (commentStart ++ (c ++ (ascii "-->" ++ s))) =
      contentLoop n (behindStr (ascii "-->") (c ++ (ascii "-->" ++ s))) := rfl
  rw [round,commentIs apart,ended]

/-- A name begins what is neither an end tag nor a declaration, an instruction or a comment. -/
theorem readsElement {text rest : Bytes} {kid : XmlNode} {kids : List XmlNode} {r : Bytes} (name : Name) {n : Nat}
    (element : parseElement n (name.bytes ++ s) = some (kid,rest)) (reads : Reads rest (text,kids,r)) :
    Reads (60 :: (name.bytes ++ s)) (text,kid :: kids,r) := by
  obtain ⟨m,ended⟩ := reads
  obtain ⟨c,u,whole,head,bang⟩ := nameHead name
  obtain ⟨_,_,slash,_,mark⟩ := nameOther head
  have first : (name.bytes ++ s).head? = some c := by rw [whole]; rfl
  have declaration (w : Bytes) : ¬(60 :: 33 :: w).isPrefixOf (60 :: (name.bytes ++ s)) := by
    rw [whole]
    simp [bang.symm]
  have cdata : ¬cdataStart.isPrefixOf (60 :: (name.bytes ++ s)) := declaration _
  have comment : ¬commentStart.isPrefixOf (60 :: (name.bytes ++ s)) := declaration _
  refine ⟨max n m + 1,?_⟩
  rw [contentLoop,if_pos rfl,first,if_neg (by simpa using slash),if_neg cdata,if_neg comment,if_neg (by simpa using ⟨mark,bang⟩),
    elementMore element (le_max_left n m),Option.bind_some]
  dsimp only
  rw [contentMore ended (le_max_right n m)]
  rfl

theorem readsEnd (name : Name) (last : Gap) (s : Bytes) : Reads (60 :: 47 :: (name.bytes ++ (last.bytes ++ 62 :: s))) ([],[],s) := by
  refine ⟨1,?_⟩
  have plain : ∀ c ∈ 60 :: 47 :: (name.bytes ++ last.bytes), c ≠ 62 := by
    intro c hc
    have white : wsByte 62 = false := rfl
    have name_ : nameByte 62 = false := rfl
    simp only [List.mem_cons,List.mem_append] at hc
    rcases hc with rfl | rfl | hc | hc
    · decide
    · decide
    · rintro rfl
      rw [(name.plain _ hc).1] at name_
      cases name_
    · rintro rfl
      rw [last.white _ hc] at white
      cases white
  have behind := behindIs (60 :: 47 :: (name.bytes ++ last.bytes)) plain s
  simp only [List.cons_append,List.append_assoc] at behind
  rw [contentLoop,if_pos rfl,List.head?_cons,if_pos rfl,behind]

theorem stopsTag {attrs : List (Name × Text)} {a : Bytes} (tag : Attrs attrs a) (stops : Stops s) : Stops (a ++ s) := by
  cases tag with
  | nil => exact stops
  | cons name value before left right q apart quote more =>
    obtain ⟨g,white⟩ := before
    cases g with
    | nil => exact absurd rfl apart
    | cons c g => exact stopsCons (by simp [nameByte,white c List.mem_cons_self])

/-- A tag of a name and attributes, up to what ends it. -/
theorem tagRead {attrs : List (Name × Text)} {a : Bytes} (name : Name) (gap : Gap) (tag : Attrs attrs a) {content : Bool} {rest : Bytes}
    (stops : Stops s) (ended : attrLoop 1 s = some ([],content,rest)) (skip : skipWs s = s) :
    readName (name.bytes ++ (a ++ (gap.bytes ++ s))) = (name.bytes,a ++ (gap.bytes ++ s)) ∧
    ∃ n, attrLoop n (a ++ (gap.bytes ++ s)) = some (attrs.map fun a => ⟨a.1.bytes,a.2.bytes⟩,content,rest) := by
  have gapped : attrLoop 1 (gap.bytes ++ s) = some ([],content,rest) := by
    rw [← ended,attrLoop,attrLoop,skipGap,skip]
  obtain ⟨n,read⟩ := attrsRead tag gapped
  exact ⟨readNameIs name (stopsTag tag (stopsGap gap stops)),n,by rw [read,List.append_nil]⟩

theorem contentsWhole {all : Bytes} {ks : List Elem} {b : Bytes} (contents : Contents all ks b) : 0 ∉ all := by
  induction contents with
  | nil => exact List.not_mem_nil
  | text t more ih => exact fun h => (List.mem_append.mp h).elim t.whole ih
  | comment _ _ _ ih => exact ih
  | closed _ _ _ _ _ _ ih => exact ih
  | element _ _ _ _ _ _ _ _ _ ih => exact ih

theorem closedRead {attrs : List (Name × Text)} {a : Bytes} (name : Name) (text : Text) (gap : Gap) (tag : Attrs attrs a)
    (blank : trim text.bytes = []) (rest : Bytes) :
    ∃ n kid, parseElement n (name.bytes ++ (a ++ (gap.bytes ++ 47 :: 62 :: rest))) = some (kid,rest) ∧ Same (.mk name attrs text []) kid := by
  obtain ⟨named,n,read⟩ := tagRead name gap tag (stopsCons rfl) (show attrLoop 1 (47 :: 62 :: rest) = some ([],false,rest) from rfl) rfl
  refine ⟨n + 1,.mk _ [] _ _,?_,.mk (by rw [blank]; rfl) .nil⟩
  rw [parseElement,named,read]
  rfl

theorem elementRead {attrs : List (Name × Text)} {a c inner : Bytes} {kids : List Elem} {kids' : List XmlNode} (name : Name) (text : Text)
    (gap : Gap) (tag : Attrs attrs a) (same : trim inner = trim text.bytes) (whole : 0 ∉ inner) {rest : Bytes}
    (each : List.Forall₂ Same kids kids') (reads : Reads c (inner,kids',rest)) :
    ∃ n kid, parseElement n (name.bytes ++ (a ++ (gap.bytes ++ 62 :: c))) = some (kid,rest) ∧ Same (.mk name attrs text kids) kid := by
  obtain ⟨named,n,read⟩ := tagRead name gap tag (stopsCons rfl) (show attrLoop 1 (62 :: c) = some ([],true,c) from rfl) rfl
  obtain ⟨m,loop⟩ := reads
  refine ⟨max n m + 1,.mk _ inner _ _,?_,.mk same each⟩
  rw [parseElement,named,attrMore read (le_max_left n m),Option.bind_some]
  simp only [if_true,contentMore loop (le_max_right n m),Option.map_some,cstrSelf whole]

theorem contentsRead {all : Bytes} {ks : List Elem} {b : Bytes} (contents : Contents all ks b) {rest text : Bytes}
    {kids : List XmlNode} {r : Bytes} (reads : Reads rest (text,kids,r)) :
    ∃ kids', List.Forall₂ Same ks kids' ∧ Reads (b ++ rest) (all ++ text,kids' ++ kids,r) := by
  induction contents generalizing rest text kids r with
  | nil => exact ⟨[],.nil,reads⟩
  | text t more ih =>
    obtain ⟨kids',each,behind⟩ := ih reads
    refine ⟨kids',each,?_⟩
    rw [List.append_assoc,List.append_assoc]
    exact readsWritten t.bytes behind
  | comment c apart more ih =>
    obtain ⟨kids',each,behind⟩ := ih reads
    refine ⟨kids',each,?_⟩
    simp only [List.append_assoc]
    exact readsComment apart behind
  | @closed all ks b attrs a name own gap tag blank more ih =>
    obtain ⟨kids',each,behind⟩ := ih reads
    obtain ⟨n,kid,parsed,one⟩ := closedRead name own gap tag blank (b ++ rest)
    refine ⟨kid :: kids',.cons one each,?_⟩
    simp only [List.cons_append,List.append_assoc]
    exact readsElement name parsed behind
  | @element all ks b attrs a inner kids c name own gap last tag content same more inside ih =>
    obtain ⟨kids',each,behind⟩ := ih reads
    obtain ⟨inner',those,loop⟩ := inside (readsEnd name last (b ++ rest))
    rw [List.append_nil,List.append_nil] at loop
    obtain ⟨n,kid,parsed,one⟩ := elementRead name own gap tag same (contentsWhole content) those loop
    refine ⟨kid :: kids',.cons one each,?_⟩
    simp only [List.cons_append,List.append_assoc]
    exact readsElement name parsed behind

end

/-! ### Documents -/

theorem miscWhite {t s : Bytes} (white : ∀ c ∈ t, wsByte c = true) (n : Nat) : skipMisc n (t.flatMap escape ++ s) = skipMisc n s := by
  have same : t.flatMap escape = t := by
    induction t with
    | nil => rfl
    | cons c t ih =>
      rw [List.flatMap_cons,escapeWhite (white c List.mem_cons_self),ih fun d hd => white d (List.mem_cons_of_mem _ hd)]
      rfl
  cases n with
  | zero => rfl
  | succ n => rw [same,skipMisc,skipMisc,skipGap ⟨t,white⟩]

theorem miscComment {c : Bytes} (apart : ¬ascii "-->" <:+: c) (s : Bytes) (n : Nat) :
    skipMisc (n + 1) (commentStart ++ (c ++ (ascii "-->" ++ s))) = skipMisc n s := by
  have round : skipMisc (n + 1) (commentStart ++ (c ++ (ascii "-->" ++ s))) = skipMisc n (behindStr (ascii "-->") (c ++ (ascii "-->" ++ s))) := rfl
  rw [round,commentIs apart]

theorem miscElement (name : Name) (s : Bytes) : skipMisc 1 (60 :: (name.bytes ++ s)) = some (60 :: (name.bytes ++ s)) := by
  obtain ⟨c,u,whole,head,bang⟩ := nameHead name
  obtain ⟨_,_,_,_,mark⟩ := nameOther head
  have comment : ¬commentStart.isPrefixOf (60 :: (name.bytes ++ s)) := by
    rw [whole]
    simp [commentStart,ascii,bang.symm]
  rw [skipMisc,skipNone (show wsByte 60 = false from rfl),if_neg comment,whole]
  simp [mark,bang]

/-- Behind white space and comments the root is read. -/
theorem rootRead {around src : Bytes} {e : Elem} {es : List Elem} (white : ∀ c ∈ around, wsByte c = true) (contents : Contents around es src)
    (one : es = [e]) :
    ∃ n s m root rest, skipMisc n src = some (60 :: s) ∧ parseElement m s = some (root,rest) ∧ Same e root := by
  induction contents with
  | nil => cases one
  | text t more ih =>
    obtain ⟨n,s,misc⟩ := ih (fun c hc => white c (List.mem_append_right _ hc)) one
    exact ⟨n,s,by rwa [miscWhite fun c hc => white c (List.mem_append_left _ hc)]⟩
  | comment c apart more ih =>
    obtain ⟨n,s,m,root,rest,misc,read⟩ := ih white one
    exact ⟨n + 1,s,m,root,rest,by rwa [miscComment apart],read⟩
  | closed name own gap tag blank more =>
    cases one
    obtain ⟨n,root,parsed,same⟩ := closedRead name own gap tag blank _
    exact ⟨1,_,n,root,_,miscElement name _,parsed,same⟩
  | element name own gap last tag content same more =>
    cases one
    obtain ⟨kids,each,loop⟩ := contentsRead content (readsEnd name last _)
    rw [List.append_nil,List.append_nil] at loop
    obtain ⟨n,root,parsed,like⟩ := elementRead name own gap tag same (contentsWhole content) each loop
    exact ⟨1,_,n,root,_,miscElement name _,parsed,like⟩

theorem documentRead {e : Elem} {src : Bytes} (document : Document e src) :
    ∃ root, Same e root ∧ ∀ n, 2 * src.length + 1 < n → xmlParse n src = some (some root) := by
  obtain ⟨around,white,contents⟩ := document
  obtain ⟨n,s,m,root,rest,misc,parsed,same⟩ := rootRead white contents rfl
  refine ⟨root,same,fun k enough => ?_⟩
  have less := miscLess misc
  rw [List.length_cons] at less
  have clear : passes .tag 0 (readName s).2 = true := by
    rw [((parsePasses m).1 (o := 0) parsed).1]
    exact passesDone rfl
  obtain ⟨r,ended⟩ := Option.isSome_iff_exists.mp ((parseEnds k).1 (by omega) clear)
  have equal : some r = some (root,rest) := by
    rw [← elementMore ended (le_max_left k m),← elementMore parsed (le_max_right k m)]
  rw [xmlParse,miscSame misc (by omega),Option.bind_some,if_pos List.head?_cons,List.tail_cons,ended,equal,Option.map_some]

/-! ### One way to write a tree -/

def renderAttrs : List (Name × Text) → Bytes
  | [] => []
  | (name,value) :: as => 32 :: (name.bytes ++ 61 :: 34 :: (value.bytes.flatMap escape ++ 34 :: renderAttrs as))

mutual
def Elem.render : Elem → Bytes
  | .mk name attrs text kids =>
    60 :: (name.bytes ++ (renderAttrs attrs ++ 62 :: (text.bytes.flatMap escape ++ (renderKids kids ++ 60 :: 47 :: (name.bytes ++ [62])))))
def renderKids : List Elem → Bytes
  | [] => []
  | e :: es => e.render ++ renderKids es
end

theorem attrsRendered (as : List (Name × Text)) : Attrs as (renderAttrs as) := by
  induction as with
  | nil => exact .nil
  | cons a as ih => exact .cons a.1 a.2 ⟨[32],by simp [wsByte]⟩ ⟨[],by simp⟩ ⟨[],by simp⟩ 34 (by decide) (.inl rfl) ih

mutual
theorem elemRendered {all : Bytes} {ks : List Elem} {b : Bytes} (more : Contents all ks b) :
    ∀ e : Elem, Contents all (e :: ks) (e.render ++ b)
  | .mk name attrs text kids => by
    have content := Contents.text text (kidsRendered kids)
    have whole := Contents.element name text ⟨[],by simp⟩ ⟨[],by simp⟩ (attrsRendered attrs) content (by rw [List.append_nil]) more
    simpa [Elem.render] using whole
theorem kidsRendered : ∀ es : List Elem, Contents [] es (renderKids es)
  | [] => .nil
  | e :: es => elemRendered (kidsRendered es) e
end

theorem rendered (e : Elem) : Document e e.render :=
  ⟨[],by simp,by simpa using elemRendered .nil e⟩

theorem treesRead : (∀ e : Elem, Document e e.render) ∧
    ∀ (e : Elem) (src : Bytes), Document e src → ∃ root, Same e root ∧ ∀ n, 2 * src.length + 1 < n → xmlParse n src = some (some root) :=
  ⟨rendered,fun _ _ document => documentRead document⟩

def nameA : Name := ⟨ascii "a",by decide,by simp [ascii,nameByte,wsByte],by decide⟩

theorem emptyNoNul : (0 : UInt8) ∉ ([] : Bytes) := List.not_mem_nil

def sample : Elem := .mk nameA [(nameA,⟨ascii "'<",by decide⟩)] ⟨ascii "x&y ",by decide⟩ [.mk nameA [] ⟨[],emptyNoNul⟩ []]

theorem sampleRead :
    sample.render = ascii "<a a=\"&apos;&lt;\">x&amp;y <a></a></a>" ∧
    ∃ root, Same sample root ∧ ∀ n, 2 * sample.render.length + 1 < n → xmlParse n sample.render = some (some root) :=
  ⟨rfl,treesRead.2 sample _ (treesRead.1 sample)⟩

end Napastak.Xml
