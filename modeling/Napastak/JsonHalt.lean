import Napastak.Json
import Mathlib.Data.List.DropRight

/-! Where `json_parse` comes to an end: its loops over items and fields stand still at a byte that starts no value and
that they do not pass over themselves. -/
namespace Napastak.Json
open Query Sql

inductive Box
  | array | object
  deriving DecidableEq, Repr

def Box.close : Box → UInt8
  | .array => 93
  | .object => 125

section
variable (F : Type) [Doubles F]

/-- The start of a value: the open brackets behind it and the bytes left. -/
def valueToken (open_ : List Box) (c : UInt8) (t : Bytes) : Option (List Box × Bytes) :=
  if c = 34 then some (open_,(parseChars t).2)
  else if c = 91 then some (.array :: open_,t)
  else if c = 123 then some (.object :: open_,t)
  else if (ascii "null").isPrefixOf (c :: t) then some (open_,t.drop 3)
  else if (ascii "true").isPrefixOf (c :: t) then some (open_,t.drop 3)
  else if (ascii "false").isPrefixOf (c :: t) then some (open_,t.drop 4)
  else if c = 45 ∨ isdigit c then (Doubles.strtod (F := F) (c :: t)).map fun r => (open_,r.2)
  else none

/-- The token at `c` inside the bracket `box`, which may close it, separate or start a value; nothing else is one. -/
def token (box : Box) (outer : List Box) (c : UInt8) (t : Bytes) : Option (List Box × Bytes) :=
  if c = box.close then some (outer,t)
  else if c = 44 ∨ (c = 58 ∧ box = .object) then some (box :: outer,t)
  else valueToken F (box :: outer) c t

/-- The text is tokens up to its end or to the closing of the brackets that are open. -/
inductive Tokens : List Box → Bytes → Prop
  | closed {s} : Tokens [] s
  | ended {box outer s} : skipWs s = [] → Tokens (box :: outer) s
  | next {box outer s c t open_ rest} : skipWs s = c :: t → token F box outer c t = some (open_,rest) → Tokens open_ rest →
      Tokens (box :: outer) s

/-- Behind its first bracket, if that is what the text starts with, it is tokens. -/
def Tokenised (src : Bytes) : Prop :=
  match skipWs src with
  | 91 :: t => Tokens F [.array] t
  | 123 :: t => Tokens F [.object] t
  | _ => True

end

section
variable {F : Type} [Doubles F] {box : Box} {outer open_ : List Box} {s t rest : Bytes} {c : UInt8}

theorem skipSkip (s : Bytes) : skipWs (skipWs s) = skipWs s := List.dropWhile_idempotent isspace s

theorem tokensSkip : Tokens F (box :: outer) (skipWs s) ↔ Tokens F (box :: outer) s := by
  constructor
  · intro h
    cases h with
    | ended none_ => exact .ended (skipSkip s ▸ none_)
    | next at_ is more => exact .next (skipSkip s ▸ at_) is more
  · intro h
    cases h with
    | ended none_ => exact .ended ((skipSkip s).trans none_)
    | next at_ is more => exact .next ((skipSkip s).trans at_) is more

theorem skipHead (at_ : skipWs s = c :: t) : skipWs (c :: t) = c :: t := by
  rw [← at_,skipSkip]

theorem skipLess : (skipWs s).length ≤ s.length := (List.dropWhile_sublist _).length_le

/-- What separates or closes starts no value. -/
theorem separators (h : c = 93 ∨ c = 125 ∨ c = 44 ∨ c = 58) : valueToken F open_ c t = none := by
  rcases h with rfl | rfl | rfl | rfl <;> rfl

theorem tokenValue {r : List Box × Bytes} (is : valueToken F (box :: outer) c t = some r) : token F box outer c t = some r := by
  have not_ {x : UInt8} (sep : x = 93 ∨ x = 125 ∨ x = 44 ∨ x = 58) : c ≠ x := by
    rintro rfl
    rw [separators sep] at is
    cases is
  have close : c ≠ box.close := not_ (by cases box <;> simp [Box.close])
  rw [token,if_neg close,if_neg (by simp [not_]),is]

/-- What `parse_value` does at a byte: an array, an object, a value that ends there, or an error that takes nothing. -/
theorem valueCases (at_ : skipWs s = c :: t) :
    (c = 91 ∧ ∀ n, parseValue (F := F) (n + 1) s = parseArray n t) ∨
    (c = 123 ∧ ∀ n, parseValue (F := F) (n + 1) s = parseObject n t) ∨
    ∃ v rest, (∀ n, parseValue (F := F) (n + 1) s = some (v,rest)) ∧
      ((∀ open_, valueToken F open_ c t = some (open_,rest)) ∨ rest = c :: t ∧ ∀ open_, valueToken F open_ c t = none) := by
  simp only [parseValue,at_,valueToken]
  by_cases quote : c = 34
  · exact .inr (.inr ⟨_,_,fun n => if_pos quote,.inl fun o => if_pos quote⟩)
  by_cases array : c = 91
  · exact .inl ⟨array,fun n => by rw [if_neg quote,if_pos array]⟩
  by_cases object : c = 123
  · exact .inr (.inl ⟨object,fun n => by rw [if_neg quote,if_neg array,if_pos object]⟩)
  refine .inr (.inr ?_)
  simp only [if_neg quote,if_neg array,if_neg object]
  split
  · exact ⟨_,_,fun n => rfl,.inl fun o => rfl⟩
  split
  · exact ⟨_,_,fun n => rfl,.inl fun o => rfl⟩
  split
  · exact ⟨_,_,fun n => rfl,.inl fun o => rfl⟩
  split
  · cases number : Doubles.strtod (F := F) (c :: t) with
    | some r => exact ⟨_,_,fun n => rfl,.inl fun o => rfl⟩
    | none => exact ⟨_,_,fun n => rfl,.inr ⟨rfl,fun o => rfl⟩⟩
  · exact ⟨_,_,fun n => rfl,.inr ⟨rfl,fun o => rfl⟩⟩

theorem openArray : token F box outer 91 t = some (.array :: box :: outer,t) := tokenValue rfl

theorem openObject : token F box outer 123 t = some (.object :: box :: outer,t) := tokenValue rfl

theorem closeToken : token F box outer box.close t = some (outer,t) := if_pos rfl

theorem commaToken : token F box outer 44 t = some (box :: outer,t) := by
  rw [token,if_neg (by cases box <;> decide),if_pos (.inl rfl)]

theorem colonToken : token F .object outer 58 t = some (.object :: outer,t) := by
  rw [token,if_neg (by decide),if_pos (.inr ⟨rfl,rfl⟩)]

theorem quoteToken : token F box outer 34 t = some (box :: outer,(parseChars t).2) := tokenValue rfl

theorem tokensNext (at_ : skipWs s = c :: t) (is : token F box outer c t = some (open_,rest)) :
    Tokens F (box :: outer) s ↔ Tokens F open_ rest := by
  constructor
  · intro h
    cases h with
    | ended none_ => exact absurd (at_.symm.trans none_) (by simp)
    | next at_' is' more =>
      cases at_.symm.trans at_'
      cases is.symm.trans is'
      exact more
  · exact .next at_ is

theorem tokensNil : Tokens F open_ [] := by
  cases open_ with
  | nil => exact .closed
  | cons box outer => exact .ended rfl

theorem colonTokens : Tokens F (.object :: outer) (skipWs (skipColon (skipWs s))) ↔ Tokens F (.object :: outer) s := by
  cases at_ : skipWs s with
  | nil => exact iff_of_true (.ended rfl) (.ended at_)
  | cons c t =>
    rw [skipColon]
    split
    · subst c
      rw [tokensNext at_ colonToken,tokensSkip]
    · rw [← at_,tokensSkip,tokensSkip]

/-- The key and the colon in front of a field's value are tokens. -/
theorem keyTokens : Tokens F (.object :: outer) (skipWs (skipColon (skipWs (parseKey (skipWs s)).2))) ↔
    Tokens F (.object :: outer) s := by
  rw [colonTokens]
  cases at_ : skipWs s with
  | nil => exact iff_of_true tokensNil (.ended at_)
  | cons c t =>
    rw [parseKey]
    split
    · subst c
      rw [tokensNext at_ quoteToken]
    · rw [← at_,tokensSkip]

/-! ### The shape that both loops share -/

section
variable {α : Type}

/-- A round once its value is read: the end of the text, the bracket, or the rest of the loop. -/
def loopRound (box : Box) (item : α) (loop : Bytes → Option (List α × Bytes)) (s : Bytes) : Option (List α × Bytes) :=
  match skipWs s with
  | [] => some ([item],[])
  | c :: t =>
    if c = box.close then some ([item],t)
    else (loop (if c = 44 then t else c :: t)).map fun (items,rest) => (item :: items,rest)

/-- What stands behind an opening bracket. -/
def opened (box : Box) (make : List α → JVal F) (loop : Bytes → Option (List α × Bytes)) (s : Bytes) : Option (JVal F × Bytes) :=
  if (skipWs s).head? = some box.close then some (make [],(skipWs s).drop 1)
  else (loop s).map fun (items,rest) => (make items,rest)

theorem arrayIs (n : Nat) (s : Bytes) : parseArray (F := F) (n + 1) s = opened .array .array (parseItems n) s := by
  rw [parseArray]
  rfl

theorem objectIs (n : Nat) (s : Bytes) : parseObject (F := F) (n + 1) s = opened .object .object (parseFields n) s := by
  rw [parseObject]
  rfl

theorem itemsIs (n : Nat) (s : Bytes) : parseItems (F := F) (n + 1) s =
    (parseValue n (skipWs s)).bind fun r => loopRound .array r.1 (parseItems n) r.2 := by
  rw [parseItems]
  rfl

/-- The text at the value of a field. -/
def atValue (s : Bytes) : Bytes := skipWs (skipColon (skipWs (parseKey (skipWs s)).2))

theorem fieldsIs (n : Nat) (s : Bytes) : parseFields (F := F) (n + 1) s =
    (parseValue n (atValue s)).bind fun r => loopRound .object ((parseKey (skipWs s)).1,r.1) (parseFields n) r.2 := by
  rw [parseFields]
  rfl

/-! ### A run that ends has met tokens only -/

/-- What is left behind the bracket can be followed back to the text in front of what was read. -/
def LeadsBack (box : Box) (loop : Bytes → Option (α × Bytes)) : Prop :=
  ∀ s items rest outer, loop s = some (items,rest) → Tokens F outer rest → Tokens F (box :: outer) s

theorem openedBack {make : List α → JVal F} {loop : Bytes → Option (List α × Bytes)} (back : LeadsBack (F := F) box loop) :
    LeadsBack (F := F) box (opened box make loop) := by
  intro s items rest outer read more
  rw [opened] at read
  split at read
  · rename_i empty
    obtain ⟨t,at_⟩ := List.head?_eq_some_iff.1 empty
    rw [at_] at read
    cases read
    exact .next at_ closeToken more
  · obtain ⟨r,is,same⟩ := Option.map_eq_some_iff.1 read
    cases same
    exact back _ _ _ _ is more

theorem roundBack {item : α} {loop : Bytes → Option (List α × Bytes)} (back : LeadsBack (F := F) box loop) :
    LeadsBack (F := F) box (loopRound box item loop) := by
  intro s items rest outer read more
  rw [loopRound] at read
  split at read
  · exact .ended ‹_›
  rename_i c t at_
  split at read
  · cases read
    subst c
    exact .next at_ closeToken more
  · obtain ⟨r,is,same⟩ := Option.map_eq_some_iff.1 read
    cases same
    have next := back _ _ _ _ is more
    split at next
    · subst c
      exact .next at_ commaToken next
    · exact tokensSkip.1 (at_ ▸ next)

end

theorem readBack (n : Nat) :
    (∀ s v rest box outer, parseValue (F := F) n s = some (v,rest) → Tokens F (box :: outer) rest → Tokens F (box :: outer) s) ∧
    LeadsBack (F := F) .array (parseArray (F := F) n) ∧ LeadsBack (F := F) .array (parseItems (F := F) n) ∧
    LeadsBack (F := F) .object (parseObject (F := F) n) ∧ LeadsBack (F := F) .object (parseFields (F := F) n) := by
  induction n with
  | zero => exact ⟨nofun,nofun,nofun,nofun,nofun⟩
  | succ n ih =>
    obtain ⟨value,array,items,object,fields⟩ := ih
    refine ⟨?_,?_,?_,?_,?_⟩
    · intro s v rest box outer read more
      cases at_ : skipWs s with
      | nil => exact .ended at_
      | cons c t =>
        rcases valueCases (F := F) at_ with ⟨rfl,is⟩ | ⟨rfl,is⟩ | ⟨v',rest',is,token | ⟨stay,-⟩⟩
        · exact .next at_ openArray (array _ _ _ _ (is n ▸ read) more)
        · exact .next at_ openObject (object _ _ _ _ (is n ▸ read) more)
        · cases (is n).symm.trans read
          exact .next at_ (tokenValue (token _)) more
        · cases (is n).symm.trans read
          rw [stay,← at_] at more
          exact tokensSkip.1 more
    · intro s v rest outer read more
      rw [arrayIs] at read
      exact openedBack items s v rest outer read more
    · intro s vs rest outer read more
      rw [itemsIs] at read
      obtain ⟨r,is,after⟩ := Option.bind_eq_some_iff.1 read
      exact tokensSkip.1 (value _ _ _ _ _ is (roundBack items _ _ _ _ after more))
    · intro s v rest outer read more
      rw [objectIs] at read
      exact openedBack fields s v rest outer read more
    · intro s fs rest outer read more
      rw [fieldsIs] at read
      obtain ⟨r,is,after⟩ := Option.bind_eq_some_iff.1 read
      exact keyTokens.1 (value _ _ _ _ _ is (roundBack fields _ _ _ _ after more))

/-! ### Over tokens a run ends -/

/-- `strtod` sets its end pointer behind what it converts. -/
def StrtodEnds (F : Type) [Doubles F] : Prop := ∀ (s : Bytes) (d : F) (rest : Bytes),
  Doubles.strtod s = some (d,rest) → rest.length < s.length

theorem charsLess (s : Bytes) : (parseChars s).2.length ≤ s.length := by
  fun_induction parseChars s <;> simp only [List.length_cons,List.length_nil] at * <;> omega

theorem valueLess (ends : StrtodEnds F) {r : List Box × Bytes} (is : valueToken F outer c t = some r) :
    r.2.length < (c :: t).length := by
  have chars := charsLess t
  unfold valueToken at is
  split_ifs at is
  any_goals
    cases is
    simp only [List.length_cons,List.length_drop]
    omega
  obtain ⟨d,number,rfl⟩ := Option.map_eq_some_iff.1 is
  exact ends _ _ _ number

theorem valueSkip (n : Nat) (s : Bytes) : parseValue (F := F) n (skipWs s) = parseValue n s := by
  cases n with
  | zero => rfl
  | succ n => rw [parseValue,parseValue,skipSkip]

/-- From some amount of fuel on the parser reads the same, and what is left is as `q` says. -/
def Reads {α : Type} (parse : Nat → Bytes → Option (α × Bytes)) (s : Bytes) (q : Bytes → Prop) : Prop :=
  ∃ v rest, q rest ∧ ∃ least, ∀ n, least ≤ n → parse n s = some (v,rest)

/-- A byte that starts no value and is a token closes the bracket, is a comma, or is a colon in an object. -/
theorem tokenOther {r : List Box × Bytes} (none_ : valueToken F (box :: outer) c t = none) (is : token F box outer c t = some r) :
    c = box.close ∨ c = 44 ∨ (c = 58 ∧ box = .object) := by
  rw [token] at is
  split at is
  · exact .inl ‹_›
  split at is
  · exact .inr ‹_›
  · rw [none_] at is
    cases is

/-- A value inside a bracket ends, and takes something. -/
def ValueEnds (F : Type) [Doubles F] (s : Bytes) : Prop :=
  ∀ box outer c t r, skipWs s = c :: t → valueToken F (box :: outer) c t = some r → Tokens F (box :: outer) s →
    Reads (parseValue (F := F)) s fun rest => Tokens F (box :: outer) rest ∧ rest.length < s.length

/-- Behind the bracket, or inside it where the loop goes on, the text is read up to the bracket that closes it. -/
def LoopEnds {α : Type} (F : Type) [Doubles F] (box : Box) (loop : Nat → Bytes → Option (α × Bytes)) (s : Bytes) : Prop :=
  ∀ outer, Tokens F (box :: outer) s → Reads loop s fun rest => Tokens F outer rest ∧ rest.length ≤ s.length

section
variable {α : Type} {loop : Nat → Bytes → Option (List α × Bytes)}

theorem readsStep {β : Type} {parse : Nat → Bytes → Option (β × Bytes)} {q : Bytes → Prop} (v : β) (rest : Bytes) (least : Nat)
    (is : q rest) (reads : ∀ n, least ≤ n → parse (n + 1) s = some (v,rest)) : Reads parse s q := by
  refine ⟨v,rest,is,least + 1,fun n enough => ?_⟩
  obtain ⟨n,rfl⟩ := Nat.exists_eq_add_of_le' (Nat.le_trans (Nat.le_add_left 1 _) enough)
  exact reads n (by omega)

theorem openedEnds {make : List α → JVal F} {parse : Nat → Bytes → Option (JVal F × Bytes)}
    (is : ∀ n, parse (n + 1) s = opened box make (loop n) s) (ends : LoopEnds F box loop s) : LoopEnds F box parse s := by
  intro outer more
  by_cases empty : (skipWs s).head? = some box.close
  · obtain ⟨t,at_⟩ := List.head?_eq_some_iff.1 empty
    have less := skipLess (s := s)
    rw [at_,List.length_cons] at less
    refine readsStep (make []) t 0 ⟨(tokensNext at_ closeToken).1 more,by omega⟩ fun n _ => ?_
    rw [is,opened,if_pos empty,at_]
    rfl
  · obtain ⟨items,rest,q,least,reads⟩ := ends _ more
    refine readsStep (make items) rest least q fun n enough => ?_
    rw [is,opened,if_neg empty,reads n enough]
    rfl

theorem roundEnds {item : α} {least : Nat} {rest' : Bytes}
    (is : ∀ n, least ≤ n → loop (n + 1) s = loopRound box item (loop n) rest')
    (more : Tokens F (box :: outer) rest') (le : rest'.length ≤ s.length)
    (next : ∀ c t, skipWs rest' = c :: t → c ≠ box.close → LoopEnds F box loop (if c = 44 then t else c :: t)) :
    Reads loop s fun rest => Tokens F outer rest ∧ rest.length ≤ s.length := by
  have less := skipLess (s := rest')
  cases at_ : skipWs rest' with
  | nil =>
    refine readsStep [item] [] least ⟨tokensNil,Nat.zero_le _⟩ fun n enough => ?_
    rw [is n enough,loopRound,at_]
  | cons c t =>
    rw [at_,List.length_cons] at less
    by_cases close : c = box.close
    · subst c
      refine readsStep [item] t least ⟨(tokensNext at_ closeToken).1 more,by omega⟩ fun n enough => ?_
      rw [is n enough,loopRound,at_]
      exact if_pos rfl
    · have on : Tokens F (box :: outer) (if c = 44 then t else c :: t) := by
        split
        · subst c
          exact (tokensNext at_ commaToken).1 more
        · exact at_ ▸ tokensSkip.2 more
      have size : (if c = 44 then t else c :: t).length ≤ rest'.length := by
        split
        · omega
        · exact less
      obtain ⟨items,rest,⟨q,le'⟩,least',reads⟩ := next c t at_ close outer on
      refine readsStep (item :: items) rest (least + least') ⟨q,by omega⟩ fun n enough => ?_
      rw [is n (by omega),loopRound,at_]
      dsimp only
      rw [if_neg close,reads n (by omega)]
      rfl

end

theorem valueEnds (ends : StrtodEnds F) (array : ∀ t : Bytes, t.length < s.length → LoopEnds F .array (parseItems (F := F)) t)
    (object : ∀ t : Bytes, t.length < s.length → LoopEnds F .object (parseFields (F := F)) t) : ValueEnds F s := by
  intro box outer c t r at_ some_ more
  have less := skipLess (s := s)
  rw [at_,List.length_cons] at less
  have short : t.length < s.length := by omega
  have inner {parse : Nat → Bytes → Option (JVal F × Bytes)} (is : ∀ n, parseValue (F := F) (n + 1) s = parse n t)
      (reads : Reads parse t fun rest => Tokens F (box :: outer) rest ∧ rest.length ≤ t.length) :
      Reads (parseValue (F := F)) s fun rest => Tokens F (box :: outer) rest ∧ rest.length < s.length := by
    obtain ⟨v,rest,⟨q,le⟩,least,reads⟩ := reads
    refine readsStep v rest least ⟨q,by omega⟩ fun n enough => ?_
    rw [is,reads n enough]
  rcases valueCases (F := F) at_ with ⟨rfl,is⟩ | ⟨rfl,is⟩ | ⟨v,rest,is,token | ⟨-,none_⟩⟩
  · exact inner is (openedEnds (fun n => arrayIs n t) (array t short) _ ((tokensNext at_ openArray).1 more))
  · exact inner is (openedEnds (fun n => objectIs n t) (object t short) _ ((tokensNext at_ openObject).1 more))
  · have shorter := valueLess ends (token (box :: outer))
    rw [List.length_cons] at shorter
    refine readsStep v rest 0 ⟨(tokensNext at_ (tokenValue (token _))).1 more,?_⟩ fun n _ => is n
    dsimp only at shorter
    omega
  · rw [none_] at some_
    cases some_

/-- A loop whose rounds start at a value of theirs, and that comes nearer to the end with each. -/
theorem loopEnds {α : Type} {loop : Nat → Bytes → Option (List α × Bytes)} (item : JVal F → α) {s' : Bytes}
    (round : ∀ n, loop (n + 1) s = (parseValue n s').bind fun r => loopRound box (item r.1) (loop n) r.2)
    (same : ∀ outer, Tokens F (box :: outer) s' ↔ Tokens F (box :: outer) s) (le : s'.length ≤ s.length)
    (colon : ∀ t, box = .object → skipWs s' = 58 :: t → (58 :: t).length < s.length) (value : ValueEnds F s')
    (ends : ∀ t : Bytes, t.length < s.length → LoopEnds F box loop t) : LoopEnds F box loop s := by
  intro outer more
  have more := (same outer).2 more
  have first (v : JVal F) {rest : Bytes} (least : Nat) (reads : ∀ n, least ≤ n → parseValue n s' = some (v,rest)) (n : Nat)
      (enough : least ≤ n) : loop (n + 1) s = loopRound box (item v) (loop n) rest := by
    rw [round,reads n enough,Option.bind_some]
  have less := skipLess (s := s')
  cases at_ : skipWs s' with
  | nil =>
    refine roundEnds (first .error 1 fun n enough => ?_) tokensNil (Nat.zero_le _) nofun
    obtain ⟨n,rfl⟩ := Nat.exists_eq_add_of_le' enough
    rw [parseValue,at_]
  | cons c t =>
    rw [at_,List.length_cons] at less
    cases start : valueToken F (box :: outer) c t with
    | some r =>
      obtain ⟨v,rest,⟨through,lt⟩,least,reads⟩ := value box outer c t r at_ start more
      refine roundEnds (first v least reads) through (by omega) fun c' t' at' _ => ends _ ?_
      have less' := skipLess (s := rest)
      rw [at',List.length_cons] at less'
      split
      · omega
      · rw [List.length_cons]
        omega
    | none =>
      rcases valueCases (F := F) at_ with ⟨rfl,-⟩ | ⟨rfl,-⟩ | ⟨v,rest,is,token | ⟨rfl,-⟩⟩
      · cases start
      · cases start
      · cases start.symm.trans (token _)
      · refine roundEnds (first v 1 fun n enough => ?_) (at_ ▸ tokensSkip.2 more) (by rw [List.length_cons]; omega) ?_
        · obtain ⟨n,rfl⟩ := Nat.exists_eq_add_of_le' enough
          exact is n
        · intro c' t' at' close
          cases (skipHead at_).symm.trans at'
          have is_ : ∃ r, token F box outer c t = some r := by
            cases more with
            | ended none_ => exact absurd (at_.symm.trans none_) (by simp)
            | next at' is _ =>
              cases at_.symm.trans at'
              exact ⟨_,is⟩
          -- what starts no value and does not close the bracket is a comma, or a colon behind something that was taken
          obtain ⟨r,is_⟩ := is_
          rcases tokenOther start is_ with h | rfl | ⟨rfl,object⟩
          · exact absurd h close
          · exact ends _ (by rw [if_pos rfl]; omega)
          · exact ends _ (colon t object at_)

theorem keyLess (s : Bytes) : (parseKey s).2.length ≤ s.length := by
  cases s with
  | nil => exact Nat.le_refl _
  | cons c t =>
    have chars := charsLess t
    rw [parseKey]
    split
    · exact Nat.le_succ_of_le chars
    · exact Nat.le_refl _

theorem skipColonLess (s : Bytes) : (skipColon s).length ≤ s.length := by
  cases s with
  | nil => exact Nat.le_refl _
  | cons c t =>
    rw [skipColon]
    split
    · exact Nat.le_succ _
    · exact Nat.le_refl _

theorem atValueLess : (atValue s).length ≤ s.length :=
  calc
    (atValue s).length ≤ (skipColon (skipWs (parseKey (skipWs s)).2)).length := skipLess
    _ ≤ (skipWs (parseKey (skipWs s)).2).length := skipColonLess _
    _ ≤ (parseKey (skipWs s)).2.length := skipLess
    _ ≤ (skipWs s).length := keyLess _
    _ ≤ s.length := skipLess

/-- A colon where a value is to start stands behind another one. -/
theorem colonLess {t : Bytes} (at_ : skipWs (atValue s) = 58 :: t) : (58 :: t).length < s.length := by
  rw [atValue,skipSkip] at at_
  have key := Nat.le_trans (keyLess (skipWs s)) skipLess
  have before := skipLess (s := (parseKey (skipWs s)).2)
  cases first : skipWs (parseKey (skipWs s)).2 with
  | nil =>
    rw [first] at at_
    cases at_
  | cons c u =>
    rw [first,List.length_cons] at before
    rw [first,skipColon] at at_
    split at at_
    · have behind := skipLess (s := u)
      rw [at_] at behind
      omega
    · cases (skipHead first).symm.trans at_
      exact absurd rfl ‹¬_›

theorem allEnd (ends : StrtodEnds F) (s : Bytes) :
    LoopEnds F .array (parseItems (F := F)) s ∧ LoopEnds F .object (parseFields (F := F)) s := by
  suffices all : ∀ k (s : Bytes), s.length < k →
      LoopEnds F .array (parseItems (F := F)) s ∧ LoopEnds F .object (parseFields (F := F)) s from all _ s (Nat.lt_succ_self _)
  intro k
  induction k with
  | zero => exact fun s short => absurd short (Nat.not_lt_zero _)
  | succ k ih =>
    intro s short
    have shorter (t : Bytes) (lt : t.length < s.length) := ih t (by omega)
    have value (s' : Bytes) (le : s'.length ≤ s.length) : ValueEnds F s' :=
      valueEnds ends (fun t lt => (shorter t (by omega)).1) fun t lt => (shorter t (by omega)).2
    constructor
    · refine loopEnds id (fun n => itemsIs n s) (fun outer => tokensSkip) skipLess nofun (value _ skipLess)
        fun t lt => (shorter t lt).1
    · exact loopEnds (fun v => ((parseKey (skipWs s)).1,v)) (fun n => fieldsIs n s) (fun outer => keyTokens) atValueLess
        (fun t _ at_ => colonLess at_) (value _ atValueLess) fun t lt => (shorter t lt).2

theorem returnedValue (n : Nat) (v : JVal F) : jsonParse n s = some v ↔ ∃ rest, parseValue n s = some (v,rest) := by
  rw [jsonParse,Option.map_eq_some_iff]
  exact ⟨fun ⟨r,is,same⟩ => ⟨r.2,same ▸ is⟩,fun ⟨rest,is⟩ => ⟨_,is,rfl⟩⟩

theorem tokenisedOther (at_ : skipWs s = c :: t) (array : c ≠ 91) (object : c ≠ 123) : Tokenised F s := by
  unfold Tokenised
  rw [at_]
  split
  · exact absurd (List.cons.inj ‹_›).1 array
  · exact absurd (List.cons.inj ‹_›).1 object
  · trivial

theorem returnsTokenised {n : Nat} {v : JVal F} (read : jsonParse n s = some v) : Tokenised F s := by
  obtain ⟨rest,read⟩ := (returnedValue n v).1 read
  cases n with
  | zero => cases read
  | succ n =>
    cases at_ : skipWs s with
    | nil =>
      unfold Tokenised
      rw [at_]
      trivial
    | cons c t =>
      by_cases array : c = 91
      · subst c
        rw [parseValue,at_] at read
        unfold Tokenised
        rw [at_]
        exact (readBack n).2.1 _ _ _ _ read .closed
      by_cases object : c = 123
      · subst c
        rw [parseValue,at_] at read
        unfold Tokenised
        rw [at_]
        exact (readBack n).2.2.2.1 _ _ _ _ read .closed
      · exact tokenisedOther at_ array object

theorem tokenisedReturns (ends : StrtodEnds F) (tokens : Tokenised F s) : ∃ n v, jsonParse (F := F) n s = some v := by
  simp only [returnedValue]
  unfold Tokenised at tokens
  cases at_ : skipWs s with
  | nil => exact ⟨1,.error,[],by rw [parseValue,at_]⟩
  | cons c t =>
    rw [at_] at tokens
    rcases valueCases (F := F) at_ with ⟨rfl,is⟩ | ⟨rfl,is⟩ | ⟨v,rest,is,-⟩
    · obtain ⟨v,rest,-,least,reads⟩ := openedEnds (fun n => arrayIs n t) (allEnd ends t).1 _ tokens
      exact ⟨least + 1,v,rest,(is _).trans (reads _ (Nat.le_refl _))⟩
    · obtain ⟨v,rest,-,least,reads⟩ := openedEnds (fun n => objectIs n t) (allEnd ends t).2 _ tokens
      exact ⟨least + 1,v,rest,(is _).trans (reads _ (Nat.le_refl _))⟩
    · exact ⟨1,v,rest,is 0⟩

/-- `json_parse` returns on the texts that are tokens, and on no others. -/
theorem parseReturns (ends : StrtodEnds F) (src : Bytes) : (∃ n v, jsonParse (F := F) n src = some v) ↔ Tokenised F src :=
  ⟨fun ⟨_,_,read⟩ => returnsTokenised read,tokenisedReturns ends⟩

end

theorem wholeEnds : StrtodEnds Int := by
  have digits (x : Int) (s rest : Bytes) (d : Int)
      (read : (if (s.takeWhile isdigit).isEmpty then none else some (x,s.drop (s.takeWhile isdigit).length)) = some (d,rest)) :
      rest.length < s.length := by
    have le := (List.takeWhile_sublist (l := s) isdigit).length_le
    split at read
    · cases read
    · rename_i some_
      cases read
      have pos : 0 < (s.takeWhile isdigit).length := List.length_pos_iff.2 fun h => some_ (by rw [h]; rfl)
      rw [List.length_drop]
      omega
  intro s d rest read
  simp only [Doubles.strtod] at read
  split at read
  · exact Nat.lt_succ_of_lt (digits _ _ _ _ read)
  · exact Nat.lt_succ_of_lt (digits _ _ _ _ read)
  · exact digits _ _ _ _ read

/-- A list of a number and an object that is cut off behind a key. -/
theorem parseReturnsCut : StrtodEnds Int ∧
    ((∃ n v, jsonParse (F := Int) n (ascii "[1,\x7b\"a\":") = some v) ↔ Tokenised Int (ascii "[1,\x7b\"a\":")) :=
  ⟨wholeEnds,parseReturns wholeEnds _⟩

/-- A literal that is cut off inside an array is tried again for ever, and so is a bracket that closes nothing. -/
theorem parseStandsStill :
    (∀ n, jsonParse (F := Int) n (ascii "[nu") = none) ∧ ∀ n, jsonParse (F := Int) n (ascii "\x7b]") = none := by
  have still (src : Bytes) (not_ : ¬Tokenised Int src) (n : Nat) : jsonParse (F := Int) n src = none :=
    Option.eq_none_iff_forall_ne_some.2 fun v read => not_ (returnsTokenised read)
  refine ⟨still _ ?_,still _ ?_⟩
  · intro tokens
    cases (show Tokens Int [.array] (ascii "nu") from tokens) with
    | ended none_ => exact absurd none_ (by decide)
    | next at_ is _ =>
      cases (show skipWs (ascii "nu") = [110,117] by decide).symm.trans at_
      cases (show token Int .array [] 110 [117] = none by decide).symm.trans is
  · intro tokens
    cases (show Tokens Int [.object] (ascii "]") from tokens) with
    | ended none_ => exact absurd none_ (by decide)
    | next at_ is _ =>
      cases (show skipWs (ascii "]") = [93] by decide).symm.trans at_
      cases (show token Int .object [] 93 [] = none by decide).symm.trans is

end Napastak.Json
