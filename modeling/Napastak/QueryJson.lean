import Napastak.JsonGrammar
import Napastak.ColBatch
import Napastak.PipelineTrip

/-! The JSON answer of a query: columns, rows, time and count, with the numbers bare that `is_json_number` accepts. -/
namespace Napastak.QueryJson
open Query Sql Json Rfc8259 Munch
open Store (ColType)
open Utf8 (WellFormed)
open String (utf8EncodeChar)

/-! ### The code -/

def isJsonNumber (s : Bytes) : Bool :=
  let p := if s.head? = some 45 then s.tail else s
  let whole := p.takeWhile isdigit
  let p := p.dropWhile isdigit
  let (frac,p) : Bytes × Bytes := if p.head? = some 46 then (p.tail.takeWhile isdigit,p.tail.dropWhile isdigit) else ([],p)
  let dig := !whole.isEmpty || !frac.isEmpty
  if p.head? = some 101 ∨ p.head? = some 69 then
    let p := p.tail
    let p := if p.head? = some 45 ∨ p.head? = some 43 then p.tail else p
    !(p.takeWhile isdigit).isEmpty && (dig && (p.dropWhile isdigit).isEmpty)
  else dig && p.isEmpty

/-- `COL_IS_NUMERIC`. -/
def isNumeric : ColType → Bool
  | .int64 | .double | .decimal => true
  | _ => false

/-- What of an `RS` goes into the answer. A row without cells is NULL throughout. -/
structure RS where
  colNames : List (Option Bytes)
  colTypes : Option (List ColType)
  rows : List (Option (List (Option Bytes)))
  truncated : Bool

def RS.colType (rs : RS) (c : Nat) : ColType :=
  match rs.colTypes with
  | none => .text
  | some types => types.getD c .text

/-- A NULL pointer or one below 0x1000 is no text. -/
def cellAt (row : Option (List (Option Bytes))) (c : Nat) : Option Bytes :=
  match row with
  | none => none
  | some cells => cells.getD c none

def jbRaw (j raw : Bytes) : Bytes := jbComma j ++ raw

def jbCell (t : ColType) (j : Bytes) : Option Bytes → Bytes
  | none => jbNull j
  | some v =>
    if v = nullSentinel then jbNull j
    else if isNumeric t && isJsonNumber v then jbRaw j v
    else if t = .bool ∧ (v = ascii "true" ∨ v = ascii "false") then jbRaw j v
    else jbStrn j v

def jbRow (rs : RS) (j : Bytes) (row : Option (List (Option Bytes))) : Bytes :=
  jbArrEnd ((List.range rs.colNames.length).foldl (fun j c => jbCell (rs.colType c) j (cellAt row c)) (jbArrBegin j))

/-- The answer of `h_query`; `ms` is the time it took. -/
def queryBody {F : Type} [JsonDoubles F] (rs : Option RS) (ms : F) : Bytes :=
  let names : List Bytes := match rs with
    | none => []
    | some rs => rs.colNames.map (·.getD [])
  let j := jbObjBegin []
  let j := jbArrEnd (names.foldl jbStrn (jbArrBegin (jbKey j (ascii "columns"))))
  let j := jbArrBegin (jbKey j (ascii "rows"))
  let j := jbArrEnd (match rs with
    | none => j
    | some rs => rs.rows.foldl (jbRow rs) j)
  let j := jbDouble (jbKey j (ascii "elapsed_ms")) ms
  let j := jbInt (jbKey j (ascii "row_count")) (match rs with
    | none => 0
    | some rs => Int64.ofNat rs.rows.length)
  let j := match rs with
    | none => j
    | some rs => if rs.truncated then jbBool (jbKey j (ascii "truncated")) true else j
  jbObjEnd j

/-! ### What the answer should say -/

/-- A cell as it is shown: the sentinel is NULL. -/
def shown : Option Bytes → Option Bytes
  | none => none
  | some v => if v = nullSentinel then none else some v

def RS.shownRow (rs : RS) (row : Option (List (Option Bytes))) : List (Option Bytes) :=
  (List.range rs.colNames.length).map fun c => shown (cellAt row c)

def columnsOf (rs : Option RS) : List Bytes := (rs.map fun rs => rs.colNames.map (·.getD [])).getD []

def rowsOf (rs : Option RS) : List (List (Option Bytes)) := (rs.map fun rs => rs.rows.map rs.shownRow).getD []

def cellOf : Value → Option Bytes
  | .bool b => some (if b then ascii "true" else ascii "false")
  | .num text => some text.1
  | .str cs => some (cs.flatMap utf8EncodeChar)
  | _ => none

/-- The value has these columns and rows. -/
def Shows (names : List Bytes) (rows : List (List (Option Bytes))) (v : Value) : Prop :=
  ∃ (ns : List (List Char)) (cells : List (List Value)) (rest : List (List Char × Value)),
    v = .obj (("columns".toList,.arr (ns.map .str)) :: ("rows".toList,.arr (cells.map .arr)) :: rest) ∧
    ns.map (·.flatMap utf8EncodeChar) = names ∧ cells.map (·.map cellOf) = rows

/-- The cells that `is_json_number` is asked about and accepts. -/
def Bare (rs : Option RS) (v : Bytes) : Prop :=
  ∃ r, rs = some r ∧ ∃ row ∈ r.rows, ∃ c < r.colNames.length, isNumeric (r.colType c) = true ∧ shown (cellAt row c) = some v ∧
    isJsonNumber v = true

/-! ### Numbers -/

/-- No zero before another digit of the whole part, and a digit on both sides of the dot. -/
def tidy (s : Bytes) : Bool :=
  let p := if s.head? = some 45 then s.tail else s
  let whole := p.takeWhile isdigit
  let p := p.dropWhile isdigit
  (decide (whole.length ≤ 1) || decide (whole.head? ≠ some 48)) &&
    (decide (p.head? ≠ some 46) || (!whole.isEmpty && !(p.tail.takeWhile isdigit).isEmpty))

theorem takenDigits (s : Bytes) (some_ : s.takeWhile isdigit ≠ []) : Digits (s.takeWhile isdigit) :=
  ⟨some_,fun _ mem => List.mem_takeWhile_imp mem⟩

theorem acceptedExp {p : Bytes} (mark : p.head? = some 101 ∨ p.head? = some 69)
    (some_ : ((if p.tail.head? = some 45 ∨ p.tail.head? = some 43 then p.tail.tail else p.tail).takeWhile isdigit).isEmpty = false)
    (ended : ((if p.tail.head? = some 45 ∨ p.tail.head? = some 43 then p.tail.tail else p.tail).dropWhile isdigit).isEmpty = true) :
    ∃ e sign ds, p = expText (some (e,sign,ds)) ∧ (e = 101 ∨ e = 69) ∧ (∀ c, sign = some c → c = 43 ∨ c = 45) ∧ Digits ds := by
  cases p with
  | nil => rcases mark with no | no <;> cases no
  | cons e q =>
    have marks : e = 101 ∨ e = 69 := by simpa using mark
    rw [List.tail_cons] at some_ ended
    have whole (s : Bytes) (ended : (s.dropWhile isdigit).isEmpty = true) : s = s.takeWhile isdigit := by
      have split_ := List.takeWhile_append_dropWhile (p := isdigit) (l := s)
      rw [List.isEmpty_iff.mp ended,List.append_nil] at split_
      exact split_.symm
    split at some_
    · rename_i signed
      rw [if_pos signed] at ended
      cases q with
      | nil => rcases signed with no | no <;> cases no
      | cons c q =>
        have signs : c = 43 ∨ c = 45 := by
          rcases signed with is | is
          · exact .inr (Option.some.inj is)
          · exact .inl (Option.some.inj is)
        rw [List.tail_cons] at some_ ended
        refine ⟨e,some c,q.takeWhile isdigit,?_,marks,fun d is => Option.some.inj is ▸ signs,takenDigits q ?_⟩
        · rw [← whole q ended]
          rfl
        · rintro empty
          rw [empty] at some_
          cases some_
    · rename_i plain
      rw [if_neg plain] at ended
      refine ⟨e,none,q.takeWhile isdigit,?_,marks,nofun,takenDigits q ?_⟩
      · rw [← whole q ended]
        rfl
      · rintro empty
        rw [empty] at some_
        cases some_

theorem signSplit (s : Bytes) :
    (if (decide (s.head? = some 45)) = true then [45] else []) ++ (if s.head? = some 45 then s.tail else s) = s := by
  cases s with
  | nil => rfl
  | cons c s =>
    by_cases is : c = 45
    · subst is
      rfl
    · simp [is]

/-- An accepted text without those flaws is a number of the grammar. -/
theorem tidyNumber {s : Bytes} (ok : isJsonNumber s = true) (neat : tidy s = true) : ∃ n : Number, n.text = s := by
  have whole_ := signSplit s
  simp only [isJsonNumber] at ok
  simp only [tidy,Bool.and_eq_true,Bool.or_eq_true,decide_eq_true_eq] at neat
  generalize (if s.head? = some 45 then s.tail else s) = p at ok neat whole_
  obtain ⟨lead,dot⟩ := neat
  have split_ := List.takeWhile_append_dropWhile (p := isdigit) (l := p)
  have first (some_ : p.takeWhile isdigit ≠ []) :
      Digits (p.takeWhile isdigit) ∧ ((p.takeWhile isdigit).length = 1 ∨ (p.takeWhile isdigit).head? ≠ some 48) := by
    have := List.length_pos_iff.mpr some_
    exact ⟨takenDigits p some_,lead.imp_left fun le => by omega⟩
  generalize p.takeWhile isdigit = whole at ok dot split_ first
  generalize p.dropWhile isdigit = p1 at ok dot split_
  subst split_
  -- what stands behind the whole part and the fraction
  have build {frac : Option Bytes} {p2 : Bytes} (some_ : whole ≠ []) (digits : ∀ ds, frac = some ds → Digits ds)
      (is : p1 = fracText frac ++ p2) (left : (if p2.head? = some 101 ∨ p2.head? = some 69 then
        !((if p2.tail.head? = some 45 ∨ p2.tail.head? = some 43 then p2.tail.tail else p2.tail).takeWhile isdigit).isEmpty &&
          ((if p2.tail.head? = some 45 ∨ p2.tail.head? = some 43 then p2.tail.tail else p2.tail).dropWhile isdigit).isEmpty
        else p2.isEmpty) = true) : ∃ n : Number, n.text = s := by
    split at left
    · rename_i mark
      rw [Bool.and_eq_true,Bool.not_eq_true'] at left
      obtain ⟨e,sign,ds,text,marks,signs,digits'⟩ := acceptedExp mark left.1 left.2
      refine ⟨⟨decide (s.head? = some 45),whole,frac,some (e,sign,ds),first some_,digits,?_⟩,?_⟩
      · rintro _ _ _ ⟨⟩
        exact ⟨marks,signs,digits'⟩
      · rw [Number.text,← text,← is]
        exact whole_
    · refine ⟨⟨decide (s.head? = some 45),whole,frac,none,first some_,digits,by rintro _ _ _ ⟨⟩⟩,?_⟩
      rw [List.isEmpty_iff.mp left] at is
      rw [Number.text,show expText none = [] from rfl,← is]
      exact whole_
  have dig (some_ : whole ≠ []) (f : Bytes) : (!whole.isEmpty || !f.isEmpty) = true := by simp [some_]
  by_cases point : p1.head? = some 46
  · rw [if_pos point] at ok
    obtain ⟨some_,fracs⟩ := dot.resolve_left fun no => no point
    rw [Bool.not_eq_true',List.isEmpty_eq_false_iff] at some_ fracs
    cases p1 with
    | nil => cases point
    | cons c q =>
      cases point
      rw [List.tail_cons] at ok fracs
      have text : 46 :: q = fracText (some (q.takeWhile isdigit)) ++ q.dropWhile isdigit := by
        rw [fracText,List.cons_append,List.takeWhile_append_dropWhile]
      refine build some_ ?_ text ?_
      · rintro _ ⟨⟩
        exact takenDigits q fracs
      · simpa only [dig some_,Bool.true_and] using ok
  · rw [if_neg point] at ok
    have some_ : whole ≠ [] := by
      rintro rfl
      simp at ok
    exact @build none p1 some_ (by rintro _ ⟨⟩) rfl (by simpa only [dig some_,Bool.true_and] using ok)

theorem digitByte {c : UInt8} (is : isdigit c = true) : c ≠ 45 ∧ c ≠ 46 ∧ c ≠ 101 ∧ c ≠ 69 := by
  refine ⟨?_,?_,?_,?_⟩ <;> rintro rfl <;> cases is

theorem numberTidy (n : Number) : tidy n.text = true := by
  obtain ⟨minus,whole,frac,exp,⟨⟨some_,digits⟩,lead⟩,fracs,exps⟩ := n
  have unsigned : (if (Number.text ⟨minus,whole,frac,exp,⟨⟨some_,digits⟩,lead⟩,fracs,exps⟩).head? = some 45 then
      (Number.text ⟨minus,whole,frac,exp,⟨⟨some_,digits⟩,lead⟩,fracs,exps⟩).tail
      else Number.text ⟨minus,whole,frac,exp,⟨⟨some_,digits⟩,lead⟩,fracs,exps⟩) = whole ++ (fracText frac ++ expText exp) := by
    cases minus with
    | true => rfl
    | false =>
      obtain ⟨c,w,rfl⟩ := List.exists_cons_of_ne_nil some_
      exact if_neg fun is => (digitByte (digits c List.mem_cons_self)).1 (Option.some.inj is)
  have mark : ∀ c, (expText exp).head? = some c → c = 101 ∨ c = 69 := by
    intro c is
    cases exp with
    | none => cases is
    | some e =>
      cases is
      exact (exps _ _ _ rfl).1
  have expStop : ∀ c, (expText exp).head? = some c → isdigit c = false := by
    intro c is
    rcases mark c is with rfl | rfl <;> rfl
  have stop : ∀ c, (fracText frac ++ expText exp).head? = some c → isdigit c = false := by
    cases frac with
    | none => exact expStop
    | some ds =>
      rintro c ⟨⟩
      rfl
  obtain ⟨taken,left⟩ := takeStop digits stop
  simp only [tidy,unsigned,taken,left,Bool.and_eq_true,Bool.or_eq_true,decide_eq_true_eq]
  refine ⟨lead.imp_left fun one => by omega,?_⟩
  cases frac with
  | none =>
    refine .inl fun is => ?_
    rcases mark 46 is with no | no <;> cases no
  | some ds =>
    obtain ⟨fsome,fdigits⟩ := fracs ds rfl
    rw [fracText,List.cons_append,List.tail_cons,(takeStop fdigits expStop).1]
    simp [some_,fsome]

/-- An accepted text is a number of the grammar unless it has one of the flaws. -/
theorem acceptedNumber {s : Bytes} (ok : isJsonNumber s = true) : (∃ n : Number, n.text = s) ↔ tidy s = true := by
  refine ⟨?_,tidyNumber ok⟩
  rintro ⟨n,rfl⟩
  exact numberTidy n

theorem decimalWhole (n : Nat) : Digits (decimal n) ∧ ((decimal n).length = 1 ∨ (decimal n).head? ≠ some 48) := by
  have lead : ∀ fuel n, n ≤ fuel → 0 < n → (decimalGo fuel n).head? ≠ some 48 := by
    intro fuel
    induction fuel with
    | zero => intro n _ _; omega
    | succ fuel ih =>
      intro n le pos
      rw [decimalGo]
      split
      · rename_i small
        have all : ∀ n < 10, 0 < n → digit n ≠ 48 := by decide
        exact fun is => all n small pos (Option.some.inj is)
      · rw [List.head?_append_of_ne_nil _ (decimalSome _ _)]
        exact ih _ (by omega) (by omega)
  refine ⟨⟨decimalSome _ _,decimalDigit n⟩,?_⟩
  rcases Nat.eq_zero_or_pos n with rfl | pos
  · exact .inl rfl
  · exact .inr (lead n n (Nat.le_refl _) pos)

theorem lldNumber (v : Int64) : ∃ n : Number, n.text = lld v := by
  refine ⟨⟨decide (v.toInt < 0),decimal v.toInt.natAbs,none,none,decimalWhole _,nofun,nofun⟩,?_⟩
  rw [Number.text,lld,show fracText none ++ expText none = [] from rfl,List.append_nil]
  by_cases neg : v.toInt < 0
  · rw [if_pos neg,if_pos (decide_eq_true neg)]
    rfl
  · rw [if_neg neg,if_neg (by simpa using neg)]
    rfl

/-! ### Strings -/

theorem escapePlain {b : UInt8} (high : 32 ≤ b) (quote : b ≠ 34) (slash : b ≠ 92) : escape b = [b] := by
  have apart {d : UInt8} (low : d < 32) : b ≠ d := by
    rintro rfl
    exact absurd high (UInt8.not_le.mpr low)
  rw [escape,if_neg quote,if_neg slash,if_neg (apart (by decide)),if_neg (apart (by decide)),if_neg (apart (by decide)),
    if_neg (UInt8.not_lt.mpr high)]

theorem charHigh {c : Char} (high : 0x20 ≤ c.toNat) : ∀ b ∈ utf8EncodeChar c, 32 ≤ b := by
  have tails : ∀ t < 64, 32 ≤ UInt8.ofNat (t + 0x80) := by decide
  have heads : ∀ h < 56, 32 ≤ UInt8.ofNat (h + 0xC0) := by decide
  intro b mem
  rcases Utf8.encoded c with ⟨low,eq⟩ | ⟨h,t,hh,ht,_,_,eq⟩ | ⟨h,t,u,hh,ht,hu,_,_,eq⟩ | ⟨h,t,u,v,hh,ht,hu,hv,_,_,eq⟩ <;>
    rw [eq] at mem <;> simp only [List.mem_cons,List.not_mem_nil,or_false] at mem
  · rw [mem,UInt8.le_iff_toNat_le,UInt8.toNat_ofNat_of_lt' (Nat.lt_trans low (by decide))]
    exact high
  · rcases mem with rfl | rfl
    · exact heads h (by omega)
    · exact tails t ht
  · rcases mem with rfl | rfl | rfl
    · exact heads (h + 32) (by omega)
    · exact tails t ht
    · exact tails u hu
  · rcases mem with rfl | rfl | rfl | rfl
    · exact heads (h + 48) (by omega)
    · exact tails t ht
    · exact tails u hu
    · exact tails v hv

/-- The `\u00XX` of a control character. -/
theorem controlQuad {n : Nat} (low : n < 32) :
    ∃ q : Quad, q.text = [92,117,48,48,hexDigit (UInt8.ofNat n / 16),hexDigit (UInt8.ofNat n % 16)] ∧ q.value = n := by
  have hexes : ∀ n < 32, ((48 ≤ hexDigit (UInt8.ofNat n / 16) ∧ hexDigit (UInt8.ofNat n / 16) ≤ 57) ∧
      ((48 ≤ hexDigit (UInt8.ofNat n % 16) ∧ hexDigit (UInt8.ofNat n % 16) ≤ 57) ∨
        (97 ≤ hexDigit (UInt8.ofNat n % 16) ∧ hexDigit (UInt8.ofNat n % 16) ≤ 102))) ∧
      ((hexDigit (UInt8.ofNat n / 16)).toNat - 48) * 16 + (if hexDigit (UInt8.ofNat n % 16) ≤ 57 then
        (hexDigit (UInt8.ofNat n % 16)).toNat - 48 else if hexDigit (UInt8.ofNat n % 16) ≤ 70 then
        (hexDigit (UInt8.ofNat n % 16)).toNat - 55 else (hexDigit (UInt8.ofNat n % 16)).toNat - 87) = n := by decide
  obtain ⟨⟨tens,ones⟩,sum⟩ := hexes n low
  refine ⟨⟨⟨48,.inl (by decide)⟩,⟨48,.inl (by decide)⟩,⟨_,.inl tens⟩,⟨_,ones.imp_right .inr⟩⟩,rfl,?_⟩
  have zero : (HexDigit.mk 48 (.inl (by decide))).value = 0 := by decide
  rw [Quad.value,zero]
  simp only [HexDigit.value,if_pos tens.2]
  omega

theorem charPiece (c : Char) : ∃ p : Piece, (utf8EncodeChar c).flatMap escape = p.text ∧ p.char = c := by
  by_cases plain : 0x20 ≤ c.toNat ∧ c ≠ '"' ∧ c ≠ '\\'
  · refine ⟨.raw c plain,?_,rfl⟩
    have all : ∀ b ∈ utf8EncodeChar c, escape b = [b] := fun b mem =>
      escapePlain (charHigh plain.1 b mem) (plainBytes plain b mem).1 (plainBytes plain b mem).2
    rw [List.flatMap_congr all,List.flatMap_singleton']
    rfl
  · have short (e : Short) (is : c = e.char) (single : utf8EncodeChar e.char = [UInt8.ofNat e.char.toNat])
        (text : escape (UInt8.ofNat e.char.toNat) = [92,e.letter]) :
        ∃ p : Piece, (utf8EncodeChar c).flatMap escape = p.text ∧ p.char = c := by
      subst is
      refine ⟨.short e,?_,rfl⟩
      rw [single,List.flatMap_singleton,text]
      rfl
    by_cases quote : c = '"'
    · exact short .quote quote (by decide) (by decide)
    by_cases slash : c = '\\'
    · exact short .slash slash (by decide) (by decide)
    have low : c.toNat < 32 := by
      by_contra high
      exact plain ⟨Nat.not_lt.mp high,quote,slash⟩
    by_cases n : c = '\n'
    · exact short .n n (by decide) (by decide)
    by_cases r : c = '\r'
    · exact short .r r (by decide) (by decide)
    by_cases tab : c = '\t'
    · exact short .t tab (by decide) (by decide)
    have other : ∀ n < 32, n ≠ 10 → n ≠ 13 → n ≠ 9 →
        escape (UInt8.ofNat n) = [92,117,48,48,hexDigit (UInt8.ofNat n / 16),hexDigit (UInt8.ofNat n % 16)] := by decide
    have ne {d : Char} (is : c ≠ d) : c.toNat ≠ d.toNat := fun same => is (Char.toNat_inj.mp same)
    have single : utf8EncodeChar c = [UInt8.ofNat c.toNat] := by
      rcases Utf8.encoded c with ⟨_,eq⟩ | ⟨_,_,_,_,_,is,_⟩ | ⟨_,_,_,_,_,_,_,is,_⟩ | ⟨_,_,_,_,_,_,_,_,_,is,_⟩
      · exact eq
      all_goals omega
    obtain ⟨q,text,value⟩ := controlQuad low
    refine ⟨.unit q ?_,?_,?_⟩
    · rw [value,Textenc.surrogate]
      simp only [Bool.and_eq_false_iff,decide_eq_false_iff_not]
      omega
    · rw [single,List.flatMap_singleton,other _ low (ne n) (ne r) (ne tab)]
      exact text.symm
    · rw [Piece.char,value,Char.ofNat_toNat]

theorem quotedPieces (cs : List Char) : ∃ ps : List Piece, (cs.flatMap utf8EncodeChar).flatMap escape = ps.flatMap Piece.text ∧
    ps.map Piece.char = cs := by
  induction cs with
  | nil => exact ⟨[],rfl,rfl⟩
  | cons c cs ih =>
    obtain ⟨p,text,char⟩ := charPiece c
    obtain ⟨ps,texts,chars⟩ := ih
    refine ⟨p :: ps,?_,by rw [List.map_cons,char,chars]⟩
    rw [List.flatMap_cons,List.flatMap_append,text,texts,List.flatMap_cons]

/-! ### Documents without blanks -/

def more (ts : List Bytes) : Bytes := ts.flatMap (44 :: ·)

def commas : List Bytes → Bytes
  | [] => []
  | t :: ts => t ++ more ts

def item (d : Doc) : Item := .mk Ws.none d Ws.none

def member (m : List Piece × Doc) : Member := .mk Ws.none m.1 Ws.none Ws.none m.2 Ws.none

def arrOf : List Doc → Doc
  | [] => .emptyArr Ws.none
  | d :: ds => .arr (item d) (ds.map item)

def objOf : List (List Piece × Doc) → Doc
  | [] => .emptyObj Ws.none
  | m :: ms => .obj (member m) (ms.map member)

def memberText (m : List Piece × Doc) : Bytes := literal m.1 ++ 58 :: m.2.text

theorem itemText (d : Doc) : (item d).text = d.text := List.append_nil _

theorem memberTextIs (m : List Piece × Doc) : (member m).text = memberText m := by
  rw [member,Member.text]
  show literal m.1 ++ 58 :: (m.2.text ++ []) = memberText m
  rw [List.append_nil]
  rfl

theorem moreText (ds : List Doc) : Rfc8259.moreItems (ds.map item) = more (ds.map Doc.text) := by
  induction ds with
  | nil => rfl
  | cons d ds ih => rw [List.map_cons,Rfc8259.moreItems,itemText,ih]; rfl

theorem membersText (ms : List (List Piece × Doc)) : moreMembers (ms.map member) = more (ms.map memberText) := by
  induction ms with
  | nil => rfl
  | cons m ms ih => rw [List.map_cons,moreMembers,memberTextIs,ih]; rfl

theorem arrText (ds : List Doc) : (arrOf ds).text = 91 :: (commas (ds.map Doc.text) ++ [93]) := by
  cases ds with
  | nil => rfl
  | cons d ds => rw [arrOf,Doc.text,itemText,moreText,List.map_cons,commas,List.append_assoc]

theorem objText (ms : List (List Piece × Doc)) : (objOf ms).text = 123 :: (commas (ms.map memberText) ++ [125]) := by
  cases ms with
  | nil => rfl
  | cons m ms => rw [objOf,Doc.text,memberTextIs,membersText,List.map_cons,commas,List.append_assoc]

theorem arrValue (ds : List Doc) : (arrOf ds).value = .arr (ds.map Doc.value) := by
  have rest : ∀ ds : List Doc, Rfc8259.itemValues (ds.map item) = ds.map Doc.value := by
    intro ds
    induction ds with
    | nil => rfl
    | cons d ds ih => rw [List.map_cons,Rfc8259.itemValues,ih]; rfl
  cases ds with
  | nil => rfl
  | cons d ds => rw [arrOf,Doc.value,rest]; rfl

theorem objValue (ms : List (List Piece × Doc)) : (objOf ms).value = .obj (ms.map fun m => (m.1.map Piece.char,m.2.value)) := by
  have rest : ∀ ms : List (List Piece × Doc), memberValues (ms.map member) = ms.map fun m => (m.1.map Piece.char,m.2.value) := by
    intro ms
    induction ms with
    | nil => rfl
    | cons m ms ih => rw [List.map_cons,memberValues,ih]; rfl
  cases ms with
  | nil => rfl
  | cons m ms => rw [objOf,Doc.value,rest]; rfl

/-! ### What the writer writes -/

/-- `f` appends the text `t`, after a comma where one is due. -/
structure Writes (f : Bytes → Bytes) (t : Bytes) : Prop where
  closed : Closed t
  writes : ∀ j, f j = jbComma j ++ t

section
variable {α : Type} {f : Bytes → α → Bytes} {xs : List α} {ts : List Bytes}

theorem foldMore (all : List.Forall₂ (fun x t => Writes (f · x) t) xs ts) : ∀ j, Closed j → xs.foldl f j = j ++ more ts := by
  induction all with
  | nil => exact fun j _ => (List.append_nil j).symm
  | cons one _ ih =>
    intro j closed
    rw [List.foldl_cons,one.writes,ih _ (one.closed.behind _),commaClosed closed,more,more,List.flatMap_cons]
    simp only [List.append_assoc,List.cons_append,List.nil_append]

theorem foldCommas (all : List.Forall₂ (fun x t => Writes (f · x) t) xs ts) (j : Bytes) {c : UInt8} (opens : c = 91 ∨ c = 123 ∨ c = 58) :
    xs.foldl f (j ++ [c]) = j ++ c :: commas ts := by
  cases all with
  | nil => rfl
  | cons one rest =>
    rw [List.foldl_cons,one.writes,foldMore rest _ (one.closed.behind _),commaOpen _ opens,commas]
    simp only [List.append_assoc,List.cons_append,List.nil_append]

theorem arrWrites (all : List.Forall₂ (fun x t => Writes (f · x) t) xs ts) :
    Writes (fun j => jbArrEnd (xs.foldl f (jbArrBegin j))) (91 :: (commas ts ++ [93])) := by
  refine ⟨⟨91 :: commas ts,93,rfl,by decide⟩,fun j => ?_⟩
  rw [jbArrEnd,jbArrBegin,foldCommas all _ (.inl rfl)]
  simp only [List.append_assoc,List.cons_append]

end

theorem keyWrites {f : Bytes → Bytes} {t : Bytes} (w : Writes f t) (k : Bytes) :
    Writes (fun j => f (jbKey j k)) (34 :: (k ++ 34 :: 58 :: t)) := by
  refine ⟨?_,fun j => ?_⟩
  · have closed := w.closed.behind (34 :: (k ++ [34,58]))
    simpa only [List.cons_append,List.append_assoc,List.nil_append] using closed
  · have apart : jbKey j k = jbComma j ++ 34 :: (k ++ [34]) ++ [58] := by simp [jbKey]
    rw [w.writes,apart,commaOpen _ (.inr (.inr rfl))]
    simp only [List.append_assoc,List.cons_append,List.nil_append]

theorem closedBytes {s : Bytes} (some_ : s ≠ []) (apart : ∀ c ∈ s, c ≠ 91 ∧ c ≠ 123 ∧ c ≠ 58) : Closed s :=
  ⟨s.dropLast,s.getLast some_,(List.dropLast_append_getLast some_).symm,apart _ (List.getLast_mem some_)⟩

theorem numberClosed (n : Number) : Closed n.text := by
  refine closedBytes ?_ fun c mem => ?_
  · obtain ⟨c,w,eq,_⟩ := numberOpens n
    rw [eq]
    exact List.cons_ne_nil c w
  · have is := numberBytes n c mem
    refine ⟨?_,?_,?_⟩ <;> rintro rfl <;> cases is

theorem strWrites (cs : List Char) :
    ∃ ps : List Piece, Writes (jbStrn · (cs.flatMap utf8EncodeChar)) (Doc.str ps).text ∧ ps.map Piece.char = cs := by
  obtain ⟨ps,text,chars⟩ := quotedPieces cs
  refine ⟨ps,⟨⟨34 :: ps.flatMap Piece.text,34,rfl,by decide⟩,fun j => ?_⟩,chars⟩
  rw [jbStrn,text]
  rfl

theorem rawWrites {d : Doc} (closed : Closed d.text) : Writes (jbRaw · d.text) d.text := ⟨closed,fun _ => rfl⟩

/-- A cell whose text is UTF-8, and tidy where it goes out bare. -/
def FitCell (t : ColType) (v : Option Bytes) : Prop :=
  ∀ s, shown v = some s → WellFormed s ∧ (isNumeric t = true → isJsonNumber s = true → tidy s = true)

theorem cellWrites {t : ColType} {v : Option Bytes} (fit : FitCell t v) :
    ∃ d : Doc, Writes (jbCell t · v) d.text ∧ cellOf d.value = shown v := by
  have null : Writes jbNull Doc.null.text := ⟨⟨[110,117,108],108,by decide⟩,fun _ => rfl⟩
  cases v with
  | none => exact ⟨.null,null,rfl⟩
  | some v =>
    by_cases sentinel : v = nullSentinel
    · refine ⟨.null,?_,by rw [shown,if_pos sentinel]; rfl⟩
      simpa only [jbCell,if_pos sentinel] using null
    have is : shown (some v) = some v := by rw [shown,if_neg sentinel]
    obtain ⟨⟨cs,utf⟩,neat⟩ := fit v is
    rw [is]
    simp only [jbCell,if_neg sentinel]
    by_cases bare : (isNumeric t && isJsonNumber v) = true
    · obtain ⟨numeric,number⟩ := (Bool.and_eq_true ..).mp bare
      obtain ⟨n,rfl⟩ := tidyNumber number (neat numeric number)
      simp only [if_pos bare]
      exact ⟨.num n,rawWrites (d := .num n) (numberClosed n),rfl⟩
    simp only [if_neg bare]
    by_cases flag : t = .bool ∧ (v = ascii "true" ∨ v = ascii "false")
    · simp only [if_pos flag]
      rcases flag.2 with rfl | rfl
      · exact ⟨.bool true,rawWrites (d := .bool true) ⟨[116,114,117],101,by decide⟩,rfl⟩
      · exact ⟨.bool false,rawWrites (d := .bool false) ⟨[102,97,108,115],101,by decide⟩,rfl⟩
    · simp only [if_neg flag]
      obtain ⟨ps,writes,chars⟩ := strWrites cs
      refine ⟨.str ps,utf ▸ writes,?_⟩
      rw [Doc.value,chars,utf]
      rfl

theorem docsFor {α : Type} {R : α → Doc → Prop} {xs : List α} (all : ∀ x ∈ xs, ∃ d, R x d) : ∃ ds, List.Forall₂ R xs ds := by
  induction xs with
  | nil => exact ⟨[],.nil⟩
  | cons x xs ih =>
    obtain ⟨d,is⟩ := all x List.mem_cons_self
    obtain ⟨ds,rest⟩ := ih fun y mem => all y (List.mem_cons_of_mem _ mem)
    exact ⟨d :: ds,.cons is rest⟩

theorem forall₂Text {α : Type} {f : Bytes → α → Bytes} {R : α → Doc → Prop} {xs : List α} {ds : List Doc}
    (all : List.Forall₂ (fun x d => Writes (f · x) d.text ∧ R x d) xs ds) :
    List.Forall₂ (fun x t => Writes (f · x) t) xs (ds.map Doc.text) :=
  List.forall₂_map_right_iff.mpr (all.imp fun _ _ h => h.1)

theorem forall₂Values {α β : Type} {g : α → β} {h : Doc → β} {R : α → Doc → Prop} {xs : List α} {ds : List Doc}
    (all : List.Forall₂ (fun x d => R x d ∧ h d = g x) xs ds) : ds.map h = xs.map g := by
  induction all with
  | nil => rfl
  | cons one _ ih => rw [List.map_cons,List.map_cons,one.2,ih]

theorem rowWrites {rs : RS} {row : Option (List (Option Bytes))} (fit : ∀ c < rs.colNames.length, FitCell (rs.colType c) (cellAt row c)) :
    ∃ d : Doc, Writes (jbRow rs · row) d.text ∧ ∃ vs, d.value = .arr vs ∧ vs.map cellOf = rs.shownRow row := by
  have cells : ∀ c ∈ List.range rs.colNames.length,
      ∃ d : Doc, Writes (jbCell (rs.colType c) · (cellAt row c)) d.text ∧ cellOf d.value = shown (cellAt row c) :=
    fun c mem => cellWrites (fit c (List.mem_range.mp mem))
  obtain ⟨ds,all⟩ := docsFor cells
  refine ⟨arrOf ds,?_,_,arrValue ds,?_⟩
  · rw [arrText]
    exact arrWrites (forall₂Text all)
  · rw [List.map_map]
    exact forall₂Values all

/-! ### The answer -/

section
variable {F : Type} [JsonDoubles F]

/-- The bare cells are numbers of the grammar, and the answer is the text of one JSON value that shows the same cells. -/
def Rendered (rs : Option RS) (ms : F) : Prop :=
  (∀ v, Bare rs v → ∃ n : Number, n.text = v) ∧
    ∃ v, Denotes (queryBody rs ms) v ∧ (∀ w, Denotes (queryBody rs ms) w → w = v) ∧ Shows (columnsOf rs) (rowsOf rs) v

/-- Column names and cells are UTF-8, and no bare cell has a zero before its whole part or a dot without digits around it. -/
def Fit (rs : Option RS) : Prop :=
  (∀ n ∈ columnsOf rs, WellFormed n) ∧ (∀ row ∈ rowsOf rs, ∀ v, some v ∈ row → WellFormed v) ∧ ∀ v, Bare rs v → tidy v = true

theorem asciiWell {s : Bytes} (ascii_ : ∀ c ∈ s, c.toNat < 128) : WellFormed s := by
  induction s with
  | nil => exact ⟨[],rfl⟩
  | cons b s ih =>
    obtain ⟨cs,rfl⟩ := ih fun c mem => ascii_ c (List.mem_cons_of_mem _ mem)
    have all : ∀ n < 128, utf8EncodeChar (Char.ofNat n) = [UInt8.ofNat n] := by decide
    refine ⟨Char.ofNat b.toNat :: cs,?_⟩
    rw [List.flatMap_cons,all _ (ascii_ b List.mem_cons_self),UInt8.ofNat_toNat]
    rfl

theorem cellWell {v : Value} {s : Bytes} (is : cellOf v = some s) : WellFormed s := by
  cases v with
  | bool b =>
    cases is
    cases b with
    | false => exact ⟨"false".toList,by decide⟩
    | true => exact ⟨"true".toList,by decide⟩
  | num text =>
    obtain ⟨_,n,rfl⟩ := text
    cases is
    refine asciiWell fun c mem => ?_
    have number := numberBytes n c mem
    simp only [numberByte,isdigit,decide_eq_true_eq] at number
    rcases number with digit | rfl | rfl | rfl | rfl | rfl
    · exact Nat.lt_of_le_of_lt (UInt8.le_iff_toNat_le.mp digit.2) (by decide)
    all_goals decide
  | str cs =>
    cases is
    exact ⟨cs,rfl⟩
  | null | arr | obj => cases is

theorem renderedFit {rs : Option RS} {ms : F} (good : Rendered rs ms) : Fit rs := by
  obtain ⟨numbers,v,_,_,ns,cells,rest,_,names,rows⟩ := good
  refine ⟨?_,?_,fun v bare => ?_⟩
  · rw [← names]
    intro n mem
    obtain ⟨cs,_,rfl⟩ := List.mem_map.mp mem
    exact ⟨cs,rfl⟩
  · rw [← rows]
    intro row mem s some_
    obtain ⟨vs,_,rfl⟩ := List.mem_map.mp mem
    obtain ⟨v,_,is⟩ := List.mem_map.mp some_
    exact cellWell is
  · have number := numbers v bare
    obtain ⟨_,_,_,_,_,_,_,_,ok⟩ := bare
    exact (acceptedNumber ok).mp number

theorem namesWrite {names : List Bytes} (utf : ∀ n ∈ names, WellFormed n) :
    ∃ ds : List Doc, List.Forall₂ (fun n t => Writes (jbStrn · n) t) names (ds.map Doc.text) ∧
      ∃ ns : List (List Char), ds.map Doc.value = ns.map Value.str ∧ ns.map (·.flatMap utf8EncodeChar) = names := by
  induction names with
  | nil => exact ⟨[],.nil,[],rfl,rfl⟩
  | cons n names ih =>
    obtain ⟨ds,all,ns,values,texts⟩ := ih fun k mem => utf k (List.mem_cons_of_mem _ mem)
    obtain ⟨cs,rfl⟩ := utf n List.mem_cons_self
    obtain ⟨ps,writes,chars⟩ := strWrites cs
    refine ⟨.str ps :: ds,.cons writes all,cs :: ns,?_,by rw [List.map_cons,texts]⟩
    rw [List.map_cons,List.map_cons,values,Doc.value,chars]

theorem rowsWrite {rs : RS} {rows : List (Option (List (Option Bytes)))}
    (fit : ∀ row ∈ rows, ∀ c < rs.colNames.length, FitCell (rs.colType c) (cellAt row c)) :
    ∃ ds : List Doc, List.Forall₂ (fun row t => Writes (jbRow rs · row) t) rows (ds.map Doc.text) ∧
      ∃ cells : List (List Value), ds.map Doc.value = cells.map Value.arr ∧ cells.map (·.map cellOf) = rows.map rs.shownRow := by
  induction rows with
  | nil => exact ⟨[],.nil,[],rfl,rfl⟩
  | cons row rows ih =>
    obtain ⟨ds,all,cells,values,shows_⟩ := ih fun r mem => fit r (List.mem_cons_of_mem _ mem)
    obtain ⟨d,writes,vs,value,cell⟩ := rowWrites (fit row List.mem_cons_self)
    refine ⟨d :: ds,.cons writes all,vs :: cells,?_,by rw [List.map_cons,List.map_cons,shows_,cell]⟩
    rw [List.map_cons,List.map_cons,values,value]

def fieldsOf (rs : Option RS) (ms : F) : List (Bytes → Bytes) :=
  let names : List Bytes := columnsOf rs
  [fun j => jbArrEnd (names.foldl jbStrn (jbArrBegin (jbKey j (ascii "columns")))),
    fun j => jbArrEnd ((match rs with
      | none => id
      | some rs => fun j => rs.rows.foldl (jbRow rs) j) (jbArrBegin (jbKey j (ascii "rows")))),
    fun j => jbDouble (jbKey j (ascii "elapsed_ms")) ms,
    fun j => jbInt (jbKey j (ascii "row_count")) (match rs with
      | none => 0
      | some rs => Int64.ofNat rs.rows.length)] ++
  match rs with
  | none => []
  | some rs => if rs.truncated then [fun j => jbBool (jbKey j (ascii "truncated")) true] else []

theorem bodyFields (rs : Option RS) (ms : F) : queryBody rs ms = jbObjEnd ((fieldsOf rs ms).foldl (fun j f => f j) (jbObjBegin [])) := by
  cases rs with
  | none => rfl
  | some rs =>
    obtain ⟨names,types,rows,truncated⟩ := rs
    cases truncated <;> rfl

theorem memberWrites {f : Bytes → Bytes} {d : Doc} (w : Writes f d.text) (k : String)
    (plain : (k.toList.flatMap utf8EncodeChar).flatMap escape = ascii k) :
    ∃ ps : List Piece, Writes (fun j => f (jbKey j (ascii k))) (memberText (ps,d)) ∧ ps.map Piece.char = k.toList := by
  obtain ⟨ps,text,chars⟩ := quotedPieces k.toList
  refine ⟨ps,?_,chars⟩
  have key := keyWrites w (ascii k)
  rw [memberText,Json.literal,← text,plain]
  simpa only [List.cons_append,List.append_assoc,List.nil_append] using key

variable (prints : ∀ (p : Nat) (d : F), JsonDoubles.finite d = true → ∃ n : Number, n.text = JsonDoubles.printG p d)
include prints

theorem doubleNumber {ms : F} (time : JsonDoubles.finite ms = true) : ∃ n : Number, n.text = jsonFmtDouble ms := by
  rw [jsonFmtDouble]
  split
  · exact prints 15 ms time
  split
  · exact prints 16 ms time
  · exact prints 17 ms time

theorem fitRendered {rs : Option RS} {ms : F} (time : JsonDoubles.finite ms = true) (fit : Fit rs) : Rendered rs ms := by
  obtain ⟨utf,cells_,neat⟩ := fit
  refine ⟨fun v bare => ?_,?_⟩
  · have tidy_ := neat v bare
    obtain ⟨_,_,_,_,_,_,_,_,ok⟩ := bare
    exact tidyNumber ok tidy_
  obtain ⟨ds,all,ns,values,texts⟩ := namesWrite utf
  -- the rows, also where there is no result
  obtain ⟨es,rowsAll,cells,rowValues,shows_⟩ : ∃ es : List Doc, Writes (fun j => jbArrEnd ((match rs with
      | none => id
      | some rs => fun j => rs.rows.foldl (jbRow rs) j) (jbArrBegin j))) (91 :: (commas (es.map Doc.text) ++ [93])) ∧
      ∃ cells : List (List Value), es.map Doc.value = cells.map Value.arr ∧ cells.map (·.map cellOf) = rowsOf rs := by
    cases rs with
    | none => exact ⟨[],@arrWrites Unit (fun j _ => j) [] [] .nil,[],rfl,rfl⟩
    | some rs =>
      obtain ⟨es,rowsAll,cells,values,shows_⟩ := @rowsWrite rs rs.rows fun row mem c lt s is => by
        have inRow : some s ∈ rs.shownRow row := List.mem_map.mpr ⟨c,List.mem_range.mpr lt,is⟩
        exact ⟨cells_ _ (List.mem_map_of_mem mem) s inRow,fun numeric ok => neat s ⟨rs,rfl,row,mem,c,lt,numeric,is,ok⟩⟩
      exact ⟨es,arrWrites rowsAll,cells,values,shows_⟩
  obtain ⟨n1,number1⟩ := doubleNumber prints time
  obtain ⟨n2,number2⟩ := lldNumber (match rs with
    | none => 0
    | some rs => Int64.ofNat rs.rows.length)
  have arrays : Writes (fun j => jbArrEnd ((columnsOf rs).foldl jbStrn (jbArrBegin j))) (arrOf ds).text := arrText ds ▸ arrWrites all
  obtain ⟨k1,w1,c1⟩ := memberWrites arrays "columns" (by decide)
  obtain ⟨k2,w2,c2⟩ := memberWrites (arrText es ▸ rowsAll) "rows" (by decide)
  obtain ⟨k3,w3,_⟩ := memberWrites (f := (jbDouble · ms)) (d := .num n1)
    ⟨numberClosed n1,fun j => congrArg (jbComma j ++ ·) number1.symm⟩ "elapsed_ms" (by decide)
  obtain ⟨k4,w4,_⟩ := memberWrites (f := (jbInt · _)) (d := .num n2)
    ⟨numberClosed n2,fun j => congrArg (jbComma j ++ ·) number2.symm⟩ "row_count" (by decide)
  obtain ⟨k5,w5,_⟩ := memberWrites (f := (jbBool · true)) (d := .bool true)
    ⟨⟨[116,114,117],101,by decide⟩,fun j => rfl⟩ "truncated" (by decide)
  obtain ⟨last,lastAll⟩ : ∃ last : List (List Piece × Doc), List.Forall₂ (fun (f : Bytes → Bytes) t => Writes (fun j => f j) t)
      (match rs with
        | none => []
        | some rs => if rs.truncated then [fun j => jbBool (jbKey j (ascii "truncated")) true] else []) (last.map memberText) := by
    cases rs with
    | none => exact ⟨[],.nil⟩
    | some rs =>
      dsimp only
      split
      · exact ⟨[(k5,.bool true)],.cons w5 .nil⟩
      · exact ⟨[],.nil⟩
  have fields : List.Forall₂ (fun (f : Bytes → Bytes) t => Writes (fun j => f j) t) (fieldsOf rs ms)
      (([(k1,arrOf ds),(k2,arrOf es),(k3,.num n1),(k4,.num n2)] ++ last).map memberText) :=
    .cons w1 (.cons w2 (.cons w3 (.cons w4 lastAll)))
  have written := foldCommas fields [] (.inr (.inl rfl))
  have body : queryBody rs ms = (objOf ([(k1,arrOf ds),(k2,arrOf es),(k3,.num n1),(k4,.num n2)] ++ last)).text := by
    rw [bodyFields,objText]
    exact congrArg jbObjEnd written
  have denotes : Denotes (queryBody rs ms) (objOf ([(k1,arrOf ds),(k2,arrOf es),(k3,.num n1),(k4,.num n2)] ++ last)).value :=
    ⟨Ws.none,_,Ws.none,by rw [body]; exact (List.append_nil _).symm,rfl⟩
  refine ⟨_,denotes,fun w also => denotesOne also denotes,ns,cells,
    ([(k3,Doc.num n1),(k4,Doc.num n2)] ++ last).map fun m => (m.1.map Piece.char,m.2.value),?_,texts,shows_⟩
  rw [objValue,List.cons_append,List.cons_append,List.map_cons,List.map_cons,c1,c2,arrValue,arrValue,values,rowValues]

/-- The answer is well-formed JSON of the same cells exactly for names and cells in UTF-8 whose bare numbers have no leading zero
and no dot without digits on both sides. -/
theorem renderedIff (rs : Option RS) (ms : F) (time : JsonDoubles.finite ms = true) : Rendered rs ms ↔ Fit rs :=
  ⟨renderedFit,fitRendered prints time⟩

end

theorem wholePrints (p : Nat) (d : Int) (_ : JsonDoubles.finite d = true) : ∃ n : Number, n.text = JsonDoubles.printG p d := lldNumber _

/-- A price, a name with a quote and a NULL. -/
def priceList : RS := ⟨[some (ascii "price"),some (ascii "name"),none],some [.decimal,.text,.text],
  [some [some (ascii "-1.50e3"),some (ascii "a\"b"),none]],true⟩

theorem renderedPrices : JsonDoubles.finite (0 : Int) = true ∧ (Rendered (some priceList) (0 : Int) ↔ Fit (some priceList)) :=
  ⟨rfl,renderedIff wholePrints (some priceList) 0 rfl⟩

/-- `01` goes out bare. -/
theorem zeroBare : ¬ ∀ (rs : Option RS) (ms : Int), Rendered rs ms := by
  intro all
  have bare : Bare (some ⟨[some [110]],some [.int64],[some [some [48,49]]],false⟩) [48,49] :=
    ⟨_,rfl,_,List.mem_singleton.mpr rfl,0,by decide,rfl,by decide,by decide⟩
  obtain ⟨n,text⟩ := (all _ 0).1 _ bare
  have tidy_ := numberTidy n
  rw [text] at tidy_
  cases tidy_

end Napastak.QueryJson
