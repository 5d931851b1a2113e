import Napastak.JsonString
import Napastak.Lib.Munch

/-! The grammar of RFC 8259: JSON texts as documents, the value each denotes, and that a text denotes one value only. -/
namespace Napastak.Rfc8259
open Query Munch
open Json (Piece Quad Short literal)
open String (utf8EncodeChar)

/-! ### Documents -/

def Digits (ds : Bytes) : Prop := ds ≠ [] ∧ ∀ c ∈ ds, isdigit c = true

/-- `[ minus ] int [ frac ] [ exp ]`. -/
structure Number where
  minus : Bool
  whole : Bytes
  frac : Option Bytes
  exp : Option (UInt8 × Option UInt8 × Bytes)
  wholeDigits : Digits whole ∧ (whole.length = 1 ∨ whole.head? ≠ some 48)
  fracDigits : ∀ ds, frac = some ds → Digits ds
  expDigits : ∀ e s ds, exp = some (e,s,ds) → (e = 101 ∨ e = 69) ∧ (∀ c, s = some c → c = 43 ∨ c = 45) ∧ Digits ds

def fracText : Option Bytes → Bytes
  | none => []
  | some ds => 46 :: ds

def expText : Option (UInt8 × Option UInt8 × Bytes) → Bytes
  | none => []
  | some (e,s,ds) => e :: (s.toList ++ ds)

def Number.text (n : Number) : Bytes := (if n.minus then [45] else []) ++ (n.whole ++ (fracText n.frac ++ expText n.exp))

def wsByte (c : UInt8) : Bool := c = 32 ∨ c = 9 ∨ c = 10 ∨ c = 13

structure Ws where
  bytes : Bytes
  blank : ∀ c ∈ bytes, wsByte c = true

def Ws.none : Ws := ⟨[],nofun⟩

mutual
inductive Doc where
  | null
  | bool (b : Bool)
  | num (n : Number)
  | str (ps : List Piece)
  | emptyArr (w : Ws)
  | arr (first : Item) (rest : List Item)
  | emptyObj (w : Ws)
  | obj (first : Member) (rest : List Member)

inductive Item where
  | mk (before : Ws) (doc : Doc) (behind : Ws)

inductive Member where
  | mk (before : Ws) (key : List Piece) (colon after : Ws) (doc : Doc) (behind : Ws)
end

mutual
def Doc.text : Doc → Bytes
  | .null => ascii "null"
  | .bool b => if b then ascii "true" else ascii "false"
  | .num n => n.text
  | .str ps => literal ps
  | .emptyArr w => 91 :: (w.bytes ++ [93])
  | .arr i is => 91 :: (i.text ++ (moreItems is ++ [93]))
  | .emptyObj w => 123 :: (w.bytes ++ [125])
  | .obj m ms => 123 :: (m.text ++ (moreMembers ms ++ [125]))
def Item.text : Item → Bytes
  | .mk before d behind => before.bytes ++ (d.text ++ behind.bytes)
def moreItems : List Item → Bytes
  | [] => []
  | i :: is => 44 :: (i.text ++ moreItems is)
def Member.text : Member → Bytes
  | .mk before ps colon after d behind =>
    before.bytes ++ (literal ps ++ (colon.bytes ++ 58 :: (after.bytes ++ (d.text ++ behind.bytes))))
def moreMembers : List Member → Bytes
  | [] => []
  | m :: ms => 44 :: (m.text ++ moreMembers ms)
end

/-- A value; numbers stay as they are written. -/
inductive Value where
  | null
  | bool (b : Bool)
  | num (text : {s : Bytes // ∃ n : Number, n.text = s})
  | str (cs : List Char)
  | arr (items : List Value)
  | obj (members : List (List Char × Value))

mutual
def Doc.value : Doc → Value
  | .null => .null
  | .bool b => .bool b
  | .num n => .num ⟨n.text,n,rfl⟩
  | .str ps => .str (ps.map Piece.char)
  | .emptyArr _ => .arr []
  | .arr i is => .arr (i.value :: itemValues is)
  | .emptyObj _ => .obj []
  | .obj m ms => .obj (m.value :: memberValues ms)
def Item.value : Item → Value
  | .mk _ d _ => d.value
def itemValues : List Item → List Value
  | [] => []
  | i :: is => i.value :: itemValues is
def Member.value : Member → List Char × Value
  | .mk _ ps _ _ d _ => (ps.map Piece.char,d.value)
def memberValues : List Member → List (List Char × Value)
  | [] => []
  | m :: ms => m.value :: memberValues ms
end

/-- `s` is a JSON text of the value `v`. -/
def Denotes (s : Bytes) (v : Value) : Prop :=
  ∃ (before : Ws) (d : Doc) (behind : Ws), s = before.bytes ++ (d.text ++ behind.bytes) ∧ d.value = v

/-! ### One value for a text -/

/-- What may stand behind a value. -/
def Stop (x : Bytes) : Prop := ∀ c, x.head? = some c → wsByte c = true ∨ c = 44 ∨ c = 93 ∨ c = 125

def numberByte (c : UInt8) : Bool := isdigit c ∨ c = 43 ∨ c = 45 ∨ c = 46 ∨ c = 101 ∨ c = 69

theorem numberBytes (n : Number) : ∀ c ∈ n.text, numberByte c = true := by
  have digit {c : UInt8} (is : isdigit c = true) : numberByte c = true := by simp [numberByte,is]
  intro c mem
  rw [Number.text,List.mem_append,List.mem_append,List.mem_append] at mem
  rcases mem with minus | whole | frac | exp
  · split at minus
    · rw [List.mem_singleton.mp minus]
      decide
    · cases minus
  · exact digit (n.wholeDigits.1.2 c whole)
  · cases is : n.frac with
    | none => rw [is] at frac; cases frac
    | some ds =>
      rw [is] at frac
      rcases List.mem_cons.mp frac with rfl | mem
      · decide
      · exact digit ((n.fracDigits ds is).2 c mem)
  · cases is : n.exp with
    | none => rw [is] at exp; cases exp
    | some e =>
      obtain ⟨e,s,ds⟩ := e
      obtain ⟨mark,sign,digits⟩ := n.expDigits e s ds is
      rw [is] at exp
      rcases List.mem_cons.mp exp with rfl | mem
      · rcases mark with rfl | rfl <;> decide
      rcases List.mem_append.mp mem with mem | mem
      · rcases sign c (Option.mem_toList.mp mem) with rfl | rfl <;> decide
      · exact digit (digits.2 c mem)

theorem numberUnique {n k : Number} {x y : Bytes} (sx : Stop x) (sy : Stop y) (same : n.text ++ x = k.text ++ y) :
    n.text = k.text ∧ x = y := by
  have stops {z : Bytes} (s : Stop z) : ∀ c, z.head? = some c → numberByte c = false := by
    intro c is
    rcases s c is with ws | rfl | rfl | rfl
    · simp only [wsByte,decide_eq_true_eq] at ws
      rcases ws with rfl | rfl | rfl | rfl <;> decide
    all_goals decide
  obtain ⟨tn,dn⟩ := takeStop (numberBytes n) (stops sx)
  obtain ⟨tk,dk⟩ := takeStop (numberBytes k) (stops sy)
  exact ⟨by rw [← tn,same,tk],by rw [← dn,same,dk]⟩

theorem charUnique {c d : Char} {x y : Bytes} (same : utf8EncodeChar c ++ x = utf8EncodeChar d ++ y) : c = d ∧ x = y := by
  have arrays := congrArg List.toByteArray same
  rw [List.toByteArray_append,List.toByteArray_append] at arrays
  have first : some c = some d := by
    rw [← ByteArray.utf8DecodeChar?_utf8EncodeChar_append (c := c) (b := x.toByteArray),arrays,
      ByteArray.utf8DecodeChar?_utf8EncodeChar_append]
  cases first
  exact ⟨rfl,List.append_cancel_left same⟩

theorem quadUnique {p q : Quad} {x y : Bytes} (same : p.text ++ x = q.text ++ y) : p = q ∧ x = y := by
  obtain ⟨⟨pa,ha⟩,⟨pb,hb⟩,⟨pc,hc⟩,⟨pd,hd⟩⟩ := p
  obtain ⟨⟨qa,_⟩,⟨qb,_⟩,⟨qc,_⟩,⟨qd,_⟩⟩ := q
  simp only [Quad.text,List.cons_append,List.cons.injEq,true_and,List.nil_append] at same
  obtain ⟨rfl,rfl,rfl,rfl,rest⟩ := same
  exact ⟨rfl,rest⟩

theorem rawHead {c : Char} (plain : 0x20 ≤ c.toNat ∧ c ≠ '"' ∧ c ≠ '\\') : ∃ b bs, utf8EncodeChar c = b :: bs ∧ b ≠ 34 ∧ b ≠ 92 := by
  obtain ⟨b,bs,eq,_⟩ := Utf8.headTails c
  have apart := Json.plainBytes plain b (by rw [eq]; exact List.mem_cons_self)
  exact ⟨b,bs,eq,apart.1,apart.2⟩

theorem shortLetter (e : Short) : e.letter ≠ 117 := by cases e <;> decide

theorem letterUnique {e o : Short} (same : e.letter = o.letter) : e = o := by
  cases e <;> cases o <;> first | rfl | exact absurd same (by decide)

theorem pieceUnique {p q : Piece} {x y : Bytes} (same : p.text ++ x = q.text ++ y) : p.char = q.char ∧ x = y := by
  have noSlash {c : Char} (plain : 0x20 ≤ c.toNat ∧ c ≠ '"' ∧ c ≠ '\\') {x z : Bytes} : utf8EncodeChar c ++ x ≠ 92 :: z := by
    obtain ⟨b,bs,eq,_,slash⟩ := rawHead plain
    rw [eq]
    exact fun is => slash (List.cons.inj is).1
  have twoUnits {q hi : Quad} (single : Textenc.surrogate q.value = false) (high : Textenc.leading hi.value = true) : q ≠ hi := by
    rintro rfl
    simp only [Textenc.surrogate,Textenc.leading,Bool.and_eq_true,Bool.and_eq_false_iff,decide_eq_true_eq,
      decide_eq_false_iff_not] at single high
    omega
  cases p with
  | raw c plain =>
    cases q with
    | raw d _ => exact charUnique same
    | short | unit | pair => exact absurd same (noSlash plain)
  | short e =>
    cases q with
    | raw d plain => exact absurd same.symm (noSlash plain)
    | short o =>
      obtain ⟨letter,rest⟩ := List.cons.inj (List.cons.inj same).2
      rw [letterUnique letter]
      exact ⟨rfl,rest⟩
    | unit | pair => exact absurd (List.cons.inj (List.cons.inj same).2).1 (shortLetter e)
  | unit u single =>
    cases q with
    | raw d plain => exact absurd same.symm (noSlash plain)
    | short o => exact absurd (List.cons.inj (List.cons.inj same).2).1.symm (shortLetter o)
    | unit v _ =>
      obtain ⟨rfl,rest⟩ := quadUnique same
      exact ⟨rfl,rest⟩
    | pair hi lo high _ =>
      rw [Piece.text,Piece.text,List.append_assoc] at same
      exact absurd (quadUnique same).1 (twoUnits single high)
  | pair hi lo high low =>
    cases q with
    | raw d plain => exact absurd (same.symm.trans (List.append_assoc ..)) (noSlash plain)
    | short o => exact absurd (List.cons.inj (List.cons.inj same).2).1.symm (shortLetter o)
    | unit v single =>
      rw [Piece.text,Piece.text,List.append_assoc] at same
      exact absurd (quadUnique same).1.symm (twoUnits single high)
    | pair hi' lo' _ _ =>
      simp only [Piece.text,List.append_assoc] at same
      obtain ⟨rfl,low⟩ := quadUnique same
      obtain ⟨rfl,rest⟩ := quadUnique low
      exact ⟨rfl,rest⟩

theorem pieceHead (p : Piece) : ∃ b bs, p.text = b :: bs ∧ b ≠ 34 := by
  cases p with
  | raw c plain =>
    obtain ⟨b,bs,eq,quote,_⟩ := rawHead plain
    exact ⟨b,bs,eq,quote⟩
  | short e => exact ⟨_,_,rfl,by decide⟩
  | unit q _ => exact ⟨_,_,rfl,by decide⟩
  | pair hi lo _ _ => exact ⟨_,_,rfl,by decide⟩

theorem piecesUnique {ps qs : List Piece} {x y : Bytes} (same : ps.flatMap Piece.text ++ 34 :: x = qs.flatMap Piece.text ++ 34 :: y) :
    ps.map Piece.char = qs.map Piece.char ∧ x = y := by
  have ended {q : Piece} {x z : Bytes} : 34 :: x ≠ q.text ++ z := by
    obtain ⟨b,bs,eq,quote⟩ := pieceHead q
    rw [eq]
    exact fun is => quote (List.cons.inj is).1.symm
  induction ps generalizing qs with
  | nil =>
    cases qs with
    | nil => exact ⟨rfl,(List.cons.inj same).2⟩
    | cons q qs =>
      rw [List.flatMap_cons,List.append_assoc] at same
      exact absurd same ended
  | cons p ps ih =>
    rw [List.flatMap_cons,List.append_assoc] at same
    cases qs with
    | nil => exact absurd same.symm ended
    | cons q qs =>
      rw [List.flatMap_cons,List.append_assoc] at same
      obtain ⟨char,rest⟩ := pieceUnique same
      obtain ⟨chars,rest⟩ := ih rest
      rw [List.map_cons,List.map_cons,char,chars]
      exact ⟨rfl,rest⟩

theorem literalUnique {ps qs : List Piece} {x y : Bytes} (same : literal ps ++ x = literal qs ++ y) :
    ps.map Piece.char = qs.map Piece.char ∧ x = y := by
  simp only [literal,List.cons_append,List.append_assoc,List.nil_append,List.cons.injEq,true_and] at same
  exact piecesUnique same

theorem wsUnique {v w : Ws} {x y : Bytes} (nx : ∀ c, x.head? = some c → wsByte c = false) (ny : ∀ c, y.head? = some c → wsByte c = false)
    (same : v.bytes ++ x = w.bytes ++ y) : x = y := by
  rw [← (takeStop v.blank nx).2,same,(takeStop w.blank ny).2]

inductive Kind where
  | null | true_ | false_ | str | arr | obj | num
  deriving DecidableEq

def kindByte (c : UInt8) : Kind :=
  if c = 110 then .null else if c = 116 then .true_ else if c = 102 then .false_ else if c = 34 then .str else if c = 91 then .arr
  else if c = 123 then .obj else .num

def Doc.kind : Doc → Kind
  | .null => .null
  | .bool b => if b then .true_ else .false_
  | .num _ => .num
  | .str _ => .str
  | .emptyArr _ | .arr _ _ => .arr
  | .emptyObj _ | .obj _ _ => .obj

/-- What a value of each kind can be. -/
theorem ofKind (d : Doc) : match d.kind with
    | .null => d = .null
    | .true_ => d = .bool true
    | .false_ => d = .bool false
    | .str => ∃ ps, d = .str ps
    | .arr => (∃ w, d = .emptyArr w) ∨ ∃ i is, d = .arr i is
    | .obj => (∃ w, d = .emptyObj w) ∨ ∃ m ms, d = .obj m ms
    | .num => ∃ n, d = .num n := by
  cases d with
  | null => rfl
  | bool b => cases b <;> rfl
  | num n => exact ⟨n,rfl⟩
  | str ps => exact ⟨ps,rfl⟩
  | emptyArr w => exact .inl ⟨w,rfl⟩
  | arr i is => exact .inr ⟨i,is,rfl⟩
  | emptyObj w => exact .inl ⟨w,rfl⟩
  | obj m ms => exact .inr ⟨m,ms,rfl⟩

theorem numberOpens (n : Number) : ∃ c w, n.text = c :: w ∧ (c = 45 ∨ isdigit c = true) := by
  obtain ⟨⟨some_,digits⟩,_⟩ := n.wholeDigits
  obtain ⟨c,w,is⟩ := List.exists_cons_of_ne_nil some_
  rw [is] at digits
  rw [Number.text,is]
  split
  · exact ⟨45,_,rfl,.inl rfl⟩
  · exact ⟨c,_,rfl,.inr (digits c List.mem_cons_self)⟩

theorem docOpens (d : Doc) : ∃ c w, d.text = c :: w ∧ kindByte c = d.kind ∧ wsByte c = false ∧ c ≠ 93 := by
  cases d with
  | null => exact ⟨110,_,rfl,by decide⟩
  | bool b =>
    cases b with
    | false => exact ⟨102,_,rfl,by decide⟩
    | true => exact ⟨116,_,rfl,by decide⟩
  | num n =>
    obtain ⟨c,w,eq,first⟩ := numberOpens n
    have minus : kindByte 45 = .num ∧ wsByte 45 = false ∧ (45 : UInt8) ≠ 93 := by decide
    have digits : ∀ n < 58, 48 ≤ n → kindByte (UInt8.ofNat n) = .num ∧ wsByte (UInt8.ofNat n) = false ∧
        UInt8.ofNat n ≠ 93 := by decide
    rcases first with rfl | digit
    · exact ⟨45,w,eq,minus⟩
    · simp only [isdigit,decide_eq_true_eq] at digit
      have high : c.toNat ≤ 57 := digit.2
      have all := digits c.toNat (by omega) digit.1
      rw [UInt8.ofNat_toNat] at all
      exact ⟨c,w,eq,all⟩
  | str | emptyArr | arr | emptyObj | obj => exact ⟨_,_,rfl,rfl,rfl,by decide⟩

theorem kindUnique {d e : Doc} {x y : Bytes} (same : d.text ++ x = e.text ++ y) : d.kind = e.kind := by
  obtain ⟨c,w,eq,kind,_⟩ := docOpens d
  obtain ⟨c',w',eq',kind',_⟩ := docOpens e
  rw [eq,eq'] at same
  rw [← kind,← kind',(List.cons.inj same).1]

theorem docBlack (d : Doc) (x : Bytes) : ∀ c, (d.text ++ x).head? = some c → wsByte c = false := by
  obtain ⟨c,w,eq,_,black,_⟩ := docOpens d
  rw [eq]
  rintro _ ⟨⟩
  exact black

theorem closeBlack {c : UInt8} (is : c = 44 ∨ c = 93 ∨ c = 125 ∨ c = 58) (x : Bytes) : ∀ b, (c :: x).head? = some b → wsByte b = false := by
  rintro _ ⟨⟩
  rcases is with rfl | rfl | rfl | rfl <;> decide

theorem wsStop (w : Ws) {c : UInt8} (is : c = 44 ∨ c = 93 ∨ c = 125) (x : Bytes) : Stop (w.bytes ++ c :: x) := by
  intro b head
  obtain ⟨bytes,blank⟩ := w
  cases bytes with
  | nil =>
    cases head
    exact .inr is
  | cons d ds =>
    cases head
    exact .inl (blank b List.mem_cons_self)

/-- A value does not begin with the end of an array. -/
theorem docOpen {w v : Ws} {d : Doc} {x y : Bytes} : w.bytes ++ 93 :: x ≠ v.bytes ++ (d.text ++ y) := by
  intro same
  obtain ⟨b,bs,eq,_,_,apart⟩ := docOpens d
  have rest := wsUnique (closeBlack (by tauto) x) (docBlack d y) same
  rw [eq] at rest
  exact apart (List.cons.inj rest).1.symm

theorem literalBlack (ps : List Piece) (x : Bytes) : ∀ b, (literal ps ++ x).head? = some b → wsByte b = false := by
  rintro _ ⟨⟩
  decide

theorem keyOpen {w v : Ws} {ps : List Piece} {x y : Bytes} : w.bytes ++ 125 :: x ≠ v.bytes ++ (literal ps ++ y) := by
  intro same
  have rest := wsUnique (closeBlack (by tauto) x) (literalBlack ps y) same
  exact absurd (List.cons.inj rest).1 (by decide)

def Behind (x : Bytes) : Prop := ∃ c r, x = c :: r ∧ (c = 44 ∨ c = 93 ∨ c = 125)

theorem behindStop (w : Ws) {x : Bytes} (behind : Behind x) : Stop (w.bytes ++ x) := by
  obtain ⟨c,r,rfl,is⟩ := behind
  exact wsStop w is r

theorem behindBlack {x : Bytes} (behind : Behind x) : ∀ b, x.head? = some b → wsByte b = false := by
  obtain ⟨c,r,rfl,is⟩ := behind
  exact closeBlack (by tauto) r

theorem moreBehind (is : List Item) (x : Bytes) : Behind (moreItems is ++ 93 :: x) := by
  cases is with
  | nil => exact ⟨93,x,rfl,.inr (.inl rfl)⟩
  | cons i is => exact ⟨44,_,rfl,.inl rfl⟩

theorem membersBehind (ms : List Member) (x : Bytes) : Behind (moreMembers ms ++ 125 :: x) := by
  cases ms with
  | nil => exact ⟨125,x,rfl,.inr (.inr rfl)⟩
  | cons m ms => exact ⟨44,_,rfl,.inl rfl⟩

mutual
theorem docUnique : (d e : Doc) → (x y : Bytes) → Stop x → Stop y → d.text ++ x = e.text ++ y → d.value = e.value ∧ x = y
  | .null, e, x, y, _, _, same => by
    have is := ofKind e
    rw [← kindUnique same] at is
    obtain rfl : e = .null := is
    exact ⟨rfl,List.append_cancel_left same⟩
  | .bool b, e, x, y, _, _, same => by
    have is := ofKind e
    rw [← kindUnique same] at is
    obtain rfl : e = .bool b := by cases b <;> exact is
    exact ⟨rfl,List.append_cancel_left same⟩
  | .num n, e, x, y, sx, sy, same => by
    have is := ofKind e
    rw [← kindUnique same] at is
    obtain ⟨k,rfl⟩ : ∃ k, e = .num k := is
    obtain ⟨text,rest⟩ := numberUnique sx sy same
    exact ⟨congrArg Value.num (Subtype.ext text),rest⟩
  | .str ps, e, x, y, _, _, same => by
    have is := ofKind e
    rw [← kindUnique same] at is
    obtain ⟨qs,rfl⟩ : ∃ qs, e = .str qs := is
    obtain ⟨chars,rest⟩ := literalUnique same
    exact ⟨congrArg Value.str chars,rest⟩
  | .emptyArr w, e, x, y, _, _, same => by
    have is := ofKind e
    rw [← kindUnique same] at is
    obtain ⟨v,rfl⟩ | ⟨j,js,rfl⟩ : (∃ w, e = .emptyArr w) ∨ ∃ i is, e = .arr i is := is
    · simp only [Doc.text,List.cons_append,List.append_assoc,List.nil_append,List.cons.injEq,true_and] at same
      have rest := wsUnique (closeBlack (by tauto) x) (closeBlack (by tauto) y) same
      exact ⟨rfl,(List.cons.inj rest).2⟩
    · obtain ⟨before,d,behind⟩ := j
      simp only [Doc.text,Item.text,List.cons_append,List.append_assoc,List.nil_append,List.cons.injEq,true_and] at same
      exact absurd same docOpen
  | .arr i is, e, x, y, _, _, same => by
    have kind := ofKind e
    rw [← kindUnique same] at kind
    obtain ⟨v,rfl⟩ | ⟨j,js,rfl⟩ : (∃ w, e = .emptyArr w) ∨ ∃ i is, e = .arr i is := kind
    · obtain ⟨before,d,behind⟩ := i
      simp only [Doc.text,Item.text,List.cons_append,List.append_assoc,List.nil_append,List.cons.injEq,true_and] at same
      exact absurd same.symm docOpen
    · simp only [Doc.text,List.cons_append,List.append_assoc,List.nil_append,List.cons.injEq,true_and] at same
      obtain ⟨first,rest⟩ := itemUnique i j _ _ (moreBehind is x) (moreBehind js y) same
      obtain ⟨others,rest⟩ := moreUnique is js x y rest
      rw [Doc.value,Doc.value,first,others]
      exact ⟨rfl,rest⟩
  | .emptyObj w, e, x, y, _, _, same => by
    have is := ofKind e
    rw [← kindUnique same] at is
    obtain ⟨v,rfl⟩ | ⟨m,ms,rfl⟩ : (∃ w, e = .emptyObj w) ∨ ∃ m ms, e = .obj m ms := is
    · simp only [Doc.text,List.cons_append,List.append_assoc,List.nil_append,List.cons.injEq,true_and] at same
      have rest := wsUnique (closeBlack (by tauto) x) (closeBlack (by tauto) y) same
      exact ⟨rfl,(List.cons.inj rest).2⟩
    · obtain ⟨before,ps,colon,after,d,behind⟩ := m
      simp only [Doc.text,Member.text,List.cons_append,List.append_assoc,List.nil_append,List.cons.injEq,true_and] at same
      exact absurd same keyOpen
  | .obj m ms, e, x, y, _, _, same => by
    have kind := ofKind e
    rw [← kindUnique same] at kind
    obtain ⟨v,rfl⟩ | ⟨k,ks,rfl⟩ : (∃ w, e = .emptyObj w) ∨ ∃ m ms, e = .obj m ms := kind
    · obtain ⟨before,ps,colon,after,d,behind⟩ := m
      simp only [Doc.text,Member.text,List.cons_append,List.append_assoc,List.nil_append,List.cons.injEq,true_and] at same
      exact absurd same.symm keyOpen
    · simp only [Doc.text,List.cons_append,List.append_assoc,List.nil_append,List.cons.injEq,true_and] at same
      obtain ⟨first,rest⟩ := memberUnique m k _ _ (membersBehind ms x) (membersBehind ks y) same
      obtain ⟨others,rest⟩ := membersUnique ms ks x y rest
      rw [Doc.value,Doc.value,first,others]
      exact ⟨rfl,rest⟩
theorem itemUnique : (i j : Item) → (x y : Bytes) → Behind x → Behind y → i.text ++ x = j.text ++ y → i.value = j.value ∧ x = y
  | .mk before d behind, .mk before' e behind', x, y, bx, by', same => by
    simp only [Item.text,List.append_assoc] at same
    have docs := wsUnique (docBlack d _) (docBlack e _) same
    obtain ⟨value,rest⟩ := docUnique d e _ _ (behindStop behind bx) (behindStop behind' by') docs
    exact ⟨value,wsUnique (behindBlack bx) (behindBlack by') rest⟩
theorem moreUnique : (is js : List Item) → (x y : Bytes) → moreItems is ++ 93 :: x = moreItems js ++ 93 :: y →
    itemValues is = itemValues js ∧ x = y
  | [], js, x, y, same => by
    cases js with
    | nil => exact ⟨rfl,(List.cons.inj same).2⟩
    | cons j js => exact absurd (List.cons.inj same).1 (by decide)
  | i :: is, js, x, y, same => by
    cases js with
    | nil => exact absurd (List.cons.inj same).1 (by decide)
    | cons j js =>
      simp only [moreItems,List.cons_append,List.append_assoc,List.cons.injEq,true_and] at same
      obtain ⟨first,rest⟩ := itemUnique i j _ _ (moreBehind is x) (moreBehind js y) same
      obtain ⟨others,rest⟩ := moreUnique is js x y rest
      rw [itemValues,itemValues,first,others]
      exact ⟨rfl,rest⟩
theorem memberUnique : (m k : Member) → (x y : Bytes) → Behind x → Behind y → m.text ++ x = k.text ++ y → m.value = k.value ∧ x = y
  | .mk before ps colon after d behind, .mk before' qs colon' after' e behind', x, y, bx, by', same => by
    simp only [Member.text,List.append_assoc,List.cons_append] at same
    have keys := wsUnique (literalBlack ps _) (literalBlack qs _) same
    obtain ⟨chars,rest⟩ := literalUnique keys
    have colons := wsUnique (closeBlack (by tauto) _) (closeBlack (by tauto) _) rest
    have docs := wsUnique (docBlack d _) (docBlack e _) (List.cons.inj colons).2
    obtain ⟨value,rest⟩ := docUnique d e _ _ (behindStop behind bx) (behindStop behind' by') docs
    rw [Member.value,Member.value,chars,value]
    exact ⟨rfl,wsUnique (behindBlack bx) (behindBlack by') rest⟩
theorem membersUnique : (ms ks : List Member) → (x y : Bytes) → moreMembers ms ++ 125 :: x = moreMembers ks ++ 125 :: y →
    memberValues ms = memberValues ks ∧ x = y
  | [], ks, x, y, same => by
    cases ks with
    | nil => exact ⟨rfl,(List.cons.inj same).2⟩
    | cons k ks => exact absurd (List.cons.inj same).1 (by decide)
  | m :: ms, ks, x, y, same => by
    cases ks with
    | nil => exact absurd (List.cons.inj same).1 (by decide)
    | cons k ks =>
      simp only [moreMembers,List.cons_append,List.append_assoc,List.cons.injEq,true_and] at same
      obtain ⟨first,rest⟩ := memberUnique m k _ _ (membersBehind ms x) (membersBehind ks y) same
      obtain ⟨others,rest⟩ := membersUnique ms ks x y rest
      rw [memberValues,memberValues,first,others]
      exact ⟨rfl,rest⟩
end

theorem denotesOne {s : Bytes} {v w : Value} (is : Denotes s v) (also : Denotes s w) : v = w := by
  obtain ⟨before,d,behind,rfl,rfl⟩ := is
  obtain ⟨before',e,behind',same,rfl⟩ := also
  have ends (w : Ws) : Stop w.bytes := fun c head => .inl (w.blank c (List.mem_of_mem_head? head))
  have docs := wsUnique (docBlack d _) (docBlack e _) same
  exact (docUnique d e _ _ (ends behind) (ends behind') docs).1

end Napastak.Rfc8259
