import Napastak.Base64url
import Napastak.Decimal
import Napastak.Pipeline
import Napastak.SplitJoin
import Napastak.Lib.Munch

/-! `auth_jwt_sign` and `auth_jwt_verify`: the claims printed as JSON, signed, and found again by searching the
decoded text. The HMAC is a parameter. -/
namespace Napastak.Auth
open Scheduler (CharBuf memcpy)
open Store (cstr)

structure AuthClaims where
  userId : CharBuf 64
  role : Int32
  exp : Int64
  deriving DecidableEq

/-- HMAC-SHA256 of a text under a secret. -/
abbrev Hmac := Bytes → Bytes → {sig : Bytes // sig.length = 32}

def header : Bytes := ascii "\x7b\"alg\":\"HS256\",\"typ\":\"JWT\"\x7d"

def payload (claims : AuthClaims) : Bytes :=
  ascii "\x7b\"sub\":\"" ++ claims.userId.1 ++ ascii "\",\"role\":" ++ lld claims.role.toInt64 ++ ascii ",\"exp\":" ++
    lld claims.exp ++ ascii "\x7d"

/-- `token_len` is the size of the caller's buffer; a longer token is cut. -/
def authJwtSign (hmac : Hmac) (secret : Bytes) (claims : AuthClaims) (tokenLen : Nat) : Option Bytes := do
  let headerB64 ← base64urlEncode header 256
  let payloadB64 ← base64urlEncode ((payload claims).take 511) 512
  let data := (headerB64 ++ 46 :: payloadB64).take 1023
  let sigB64 ← base64urlEncode (hmac secret data).1 256
  some ((headerB64 ++ 46 :: payloadB64 ++ 46 :: sigB64).take (tokenLen - 1))

/-- The text before the first dot and behind it. -/
def cutDot (s : Bytes) : Option (Bytes × Bytes) :=
  match s.dropWhile (· ≠ 46) with
  | [] => none
  | _ :: rest => some (s.takeWhile (· ≠ 46),rest)

def strstr (hay needle : Bytes) : Option Bytes := hay.tails.find? fun t => needle.isPrefixOf t

/-- The claims of the decoded payload, each behind the first occurrence of its name. -/
def readClaims (json : Bytes) (now : Int64) : Option AuthClaims := do
  let sub := (← strstr json (ascii "\"sub\":\"")).drop 7
  if 34 ∉ sub then none
  else
    let roleStr ← strstr json (ascii "\"role\":")
    let expStr ← strstr json (ascii "\"exp\":")
    let exp := strtoll (expStr.drop 6)
    if exp < now then none
    else some ⟨memcpy 64 (sub.takeWhile (· ≠ 34)),(strtoll (roleStr.drop 7)).toInt32,exp⟩

def authJwtVerify (hmac : Hmac) (secret token : Bytes) (now : Int64) : Option AuthClaims := do
  let (headerB64,rest) ← cutDot (token.take 2047)
  let (payloadB64,sigB64) ← cutDot rest
  let computed ← base64urlEncode (hmac secret ((headerB64 ++ 46 :: payloadB64).take 1023)).1 256
  if computed ≠ sigB64 then none
  else readClaims (cstr ((base64urlDecode payloadB64 (0 :: sigB64) 512).take 511)) now

/-- A token that `auth_jwt_sign` gives is accepted with the claims it was signed for. -/
def RoundTrips (hmac : Hmac) (secret : Bytes) (claims : AuthClaims) (tokenLen : Nat) (now : Int64) : Prop :=
  ∀ token, authJwtSign hmac secret claims tokenLen = some token → authJwtVerify hmac secret token now = some claims

/-! ### The token -/

def signed (claims : AuthClaims) : Bytes := encoded header ++ 46 :: encoded (payload claims)

def sigText (hmac : Hmac) (secret : Bytes) (claims : AuthClaims) : Bytes := encoded (hmac secret (signed claims)).1

def tokenText (hmac : Hmac) (secret : Bytes) (claims : AuthClaims) : Bytes := signed claims ++ 46 :: sigText hmac secret claims

theorem payloadShort (claims : AuthClaims) : (payload claims).length ≤ 128 := by
  have user := claims.userId.2.2
  have role := lldShort claims.role.toInt64
  have exp := lldShort claims.exp
  simp only [payload,List.length_append,show (ascii "\x7b\"sub\":\"").length = 8 from rfl,
    show (ascii "\",\"role\":").length = 9 from rfl,show (ascii ",\"exp\":").length = 7 from rfl,
    show (ascii "\x7d").length = 1 from rfl]
  omega

theorem encodeEnough {p : Bytes} {outLen : Nat} (room : (p.length + 2) / 3 * 4 ≤ outLen) :
    base64urlEncode p outLen = some (encoded p) := encodeRoom outLen 0 p (by omega)

theorem encodedShort (p : Bytes) : (encoded p).length ≤ (p.length + 2) / 3 * 4 := by
  fun_induction encoded p with
  | case1 => exact Nat.zero_le _
  | case2 => simp [firstThree]
  | case3 => simp [firstThree]
  | case4 => simp [firstThree]
  | case5 a b c d data ih =>
    simp only [List.length_append,List.length_cons,firstThree,List.length_nil] at ih ⊢
    omega

theorem signedShort (claims : AuthClaims) : (signed claims).length ≤ 212 := by
  have short := encodedShort (payload claims)
  have most := payloadShort claims
  rw [signed,List.length_append,List.length_cons,show (encoded header).length = 35 by decide]
  omega

theorem signIs (hmac : Hmac) (secret : Bytes) (claims : AuthClaims) (tokenLen : Nat) :
    authJwtSign hmac secret claims tokenLen = some ((tokenText hmac secret claims).take (tokenLen - 1)) := by
  have most := payloadShort claims
  have data := signedShort claims
  have sig : base64urlEncode (hmac secret (signed claims)).1 256 = some (sigText hmac secret claims) :=
    encodeEnough (by rw [(hmac secret (signed claims)).2]; decide)
  have text : List.take 1023 (encoded header ++ 46 :: encoded (payload claims)) = signed claims :=
    List.take_of_length_le (by rw [← signed]; omega)
  rw [authJwtSign,encodeEnough (p := header) (by decide),List.take_of_length_le (l := payload claims) (by omega),
    encodeEnough (p := payload claims) (by omega)]
  simp only [Option.bind_eq_bind,Option.bind_some,text,sig]
  rfl

theorem cutDotAt {x rest : Bytes} (plain : 46 ∉ x) : cutDot (x ++ 46 :: rest) = some (x,rest) := by
  obtain ⟨taken,left⟩ := Munch.takeStop (p := fun c => decide (c ≠ 46)) (x := x) (r := 46 :: rest)
    (fun c hc => decide_eq_true fun e => plain (e ▸ hc)) fun y hy => by cases hy; rfl
  rw [cutDot,left,taken]

theorem cutDotNone {x : Bytes} (plain : 46 ∉ x) : cutDot x = none := by
  have none_ : x.dropWhile (fun c => decide (c ≠ 46)) = [] := List.dropWhile_eq_nil_iff.mpr fun c hc =>
    decide_eq_true fun e => plain (e ▸ hc)
  rw [cutDot,none_]

theorem noDot (p : Bytes) : (46 : UInt8) ∉ encoded p := fun mem => (encodedPlain p 46 mem).2 rfl

theorem decodeLength (past e : Bytes) : (decodeGo past e).length = (e.length + 3) / 4 * 3 := by
  fun_induction decodeGo past e with
  | case1 => rfl
  | case2 => simp [decodeGroup]
  | case3 => simp [decodeGroup]
  | case4 => simp [decodeGroup]
  | case5 x y z w s ih =>
    rw [List.length_append,ih]
    simp only [decodeGroup,List.length_cons,List.length_nil]
    omega

/-- The whole token is accepted as far as the claims in it can be read. -/
theorem verifyWhole (hmac : Hmac) (secret : Bytes) (claims : AuthClaims) (now : Int64) :
    authJwtVerify hmac secret (tokenText hmac secret claims) now =
      readClaims (cstr (decodeGo (0 :: sigText hmac secret claims) (encoded (payload claims)))) now := by
  have data := signedShort claims
  have sigShort : (sigText hmac secret claims).length ≤ 44 := by
    have := encodedShort (hmac secret (signed claims)).1
    rw [(hmac secret (signed claims)).2] at this
    exact this
  have decoded := decodeLength (0 :: sigText hmac secret claims) (encoded (payload claims))
  have short := encodedShort (payload claims)
  have most := payloadShort claims
  have whole : (tokenText hmac secret claims).take 2047 = encoded header ++ 46 :: (encoded (payload claims) ++ 46 :: sigText hmac secret claims) := by
    rw [List.take_of_length_le (by rw [tokenText,List.length_append,List.length_cons]; omega),tokenText,signed,
      List.append_assoc,List.cons_append]
  have text : List.take 1023 (encoded header ++ 46 :: encoded (payload claims)) = signed claims :=
    List.take_of_length_le (by rw [← signed]; omega)
  have sig : base64urlEncode (hmac secret (signed claims)).1 256 = some (sigText hmac secret claims) :=
    encodeEnough (by rw [(hmac secret (signed claims)).2]; decide)
  rw [authJwtVerify,whole,cutDotAt (noDot _)]
  simp only [Option.bind_eq_bind,Option.bind_some,cutDotAt (noDot _),text,sig,ne_eq,not_true_eq_false,if_false]
  rw [base64urlDecode,List.take_take,List.take_of_length_le (by omega)]

/-- A token that lost its end is refused. -/
theorem verifyCut (hmac : Hmac) (secret : Bytes) (claims : AuthClaims) (now : Int64) {m : Nat}
    (cut : m < (tokenText hmac secret claims).length) :
    authJwtVerify hmac secret ((tokenText hmac secret claims).take m) now = none := by
  have data := signedShort claims
  have whole : tokenText hmac secret claims = encoded header ++ 46 :: (encoded (payload claims) ++ 46 :: sigText hmac secret claims) := by
    rw [tokenText,signed,List.append_assoc,List.cons_append]
  have inner : ∀ {p : Bytes} {k : Nat}, (46 : UInt8) ∉ (encoded p).take k := fun mem => noDot _ (List.mem_of_mem_take mem)
  rw [authJwtVerify,List.take_take]
  have short : min 2047 m < (tokenText hmac secret claims).length := by omega
  revert short
  generalize min 2047 m = k
  intro short
  rw [whole] at short ⊢
  simp only [List.length_append,List.length_cons] at short
  rw [List.take_append]
  cases first : k - (encoded header).length with
  | zero =>
    rw [List.take_zero,List.append_nil,cutDotNone inner]
    rfl
  | succ k' =>
    rw [List.take_of_length_le (by omega),List.take_succ_cons,cutDotAt (noDot _)]
    simp only [Option.bind_eq_bind,Option.bind_some]
    rw [List.take_append]
    cases second : k' - (encoded (payload claims)).length with
    | zero =>
      rw [List.take_zero,List.append_nil,cutDotNone inner]
      rfl
    | succ k'' =>
      rw [List.take_of_length_le (by omega),List.take_succ_cons,cutDotAt (noDot _)]
      have text : List.take 1023 (encoded header ++ 46 :: encoded (payload claims)) = signed claims :=
        List.take_of_length_le (by rw [← signed]; omega)
      have sig : base64urlEncode (hmac secret (signed claims)).1 256 = some (sigText hmac secret claims) :=
        encodeEnough (by rw [(hmac secret (signed claims)).2]; decide)
      have other : sigText hmac secret claims ≠ (sigText hmac secret claims).take k'' := fun same => by
        have lengths := congrArg List.length same
        rw [List.length_take] at lengths
        omega
      simp only [Option.bind_some,text,sig,ne_eq,other,not_false_eq_true,if_true]

/-! ### The claims read back -/

theorem strstrHere {x n r : Bytes} (h : n.isPrefixOf (x ++ r) = true) : strstr (x ++ r) n = some (x ++ r) := by
  cases is : x ++ r with
  | nil => rw [is] at h; rw [strstr,List.tails,List.find?_cons,h]
  | cons c s => rw [is] at h; rw [strstr,List.tails,List.find?_cons,h]

theorem strstrLater {c : UInt8} {s n : Bytes} (h : n.isPrefixOf (c :: s) = false) : strstr (c :: s) n = strstr s n := by
  rw [strstr,List.tails,List.find?_cons,h]
  rfl

/-- A name in quotes is not found in a text without quotes. -/
theorem strstrSkip {x n r : Bytes} (plain : 34 ∉ x) : strstr (x ++ r) (34 :: n) = strstr r (34 :: n) := by
  induction x with
  | nil => rfl
  | cons c x ih =>
    have other : (34 == c) = false := beq_eq_false_iff_ne.mpr fun e => plain (e ▸ List.mem_cons_self)
    rw [List.cons_append,strstrLater (by rw [List.isPrefixOf,other]; rfl),ih fun mem => plain (List.mem_cons_of_mem _ mem)]

/-- The user's text and the comma behind it are no name and its colon. -/
theorem userApart {n uid r : Bytes} (plain : 34 ∉ uid) (name : 34 ∉ n) :
    (n ++ [34,58]).isPrefixOf (uid ++ 34 :: 44 :: r) = false := by
  induction n generalizing uid with
  | nil =>
    cases uid with
    | nil => rfl
    | cons c uid =>
      have other : (34 == c) = false := beq_eq_false_iff_ne.mpr fun e => plain (e ▸ List.mem_cons_self)
      rw [List.nil_append,List.cons_append,List.isPrefixOf,other]
      rfl
  | cons d n ih =>
    cases uid with
    | nil =>
      have other : (d == 34) = false := beq_eq_false_iff_ne.mpr fun e => name (e ▸ List.mem_cons_self)
      rw [List.nil_append,List.cons_append,List.isPrefixOf,other]
      rfl
    | cons c uid =>
      rw [List.cons_append,List.cons_append,List.isPrefixOf,
        ih (fun mem => plain (List.mem_cons_of_mem _ mem)) fun mem => name (List.mem_cons_of_mem _ mem),Bool.and_false]

def subOpen : Bytes := [123,34,115,117,98,34,58,34]

/-- What follows the user's text: its quote, the role and the expiry, which `tail` ends. -/
def afterUser (claims : AuthClaims) (tail : Bytes) : Bytes :=
  34 :: 44 :: 34 :: (ascii "role" ++ 34 :: 58 :: (lld claims.role.toInt64 ++ 44 :: 34 :: (ascii "exp" ++ 34 :: 58 :: (lld claims.exp ++ tail))))

theorem payloadIs (claims : AuthClaims) : payload claims = subOpen ++ (claims.userId.1 ++ afterUser claims [125]) := by
  simp only [payload,afterUser,List.append_assoc]
  rfl

theorem lldQuoteless (v : Int64) : (34 : UInt8) ∉ lld v := fun mem => absurd (lldBytes v 34 mem).1 (by decide)

theorem bufSelf (user : CharBuf 64) : memcpy 64 user.1 = user := by
  refine Subtype.ext ?_
  show cstr (user.1.take 63) = user.1
  rw [List.take_of_length_le user.2.2]
  exact Store.cstrSelf user.2.1

theorem readsClaims {claims : AuthClaims} {now : Int64} {tail : Bytes} (plain : 34 ∉ claims.userId.1) (future : now ≤ claims.exp)
    (stop : ∀ y, tail.head? = some y → isdigit y = false) :
    readClaims (subOpen ++ (claims.userId.1 ++ afterUser claims tail)) now = some claims := by
  have sub : strstr (subOpen ++ (claims.userId.1 ++ afterUser claims tail)) (ascii "\"sub\":\"") =
      some (34 :: 115 :: 117 :: 98 :: 34 :: 58 :: 34 :: (claims.userId.1 ++ afterUser claims tail)) := by
    rw [subOpen,List.cons_append,strstrLater rfl]
    exact strstrHere (x := []) rfl
  have role : strstr (subOpen ++ (claims.userId.1 ++ afterUser claims tail)) (ascii "\"role\":") =
      some (34 :: (ascii "role" ++ 34 :: 58 :: (lld claims.role.toInt64 ++ 44 :: 34 :: (ascii "exp" ++ 34 :: 58 :: (lld claims.exp ++ tail))))) := by
    have user := userApart (r := 34 :: (ascii "role" ++ 34 :: 58 :: (lld claims.role.toInt64 ++ 44 :: 34 :: (ascii "exp" ++ 34 :: 58 :: (lld claims.exp ++ tail)))))
      plain (show (34 : UInt8) ∉ ascii "role" by decide)
    rw [subOpen,List.cons_append,strstrLater rfl,List.cons_append,strstrLater rfl,List.cons_append,strstrLater rfl,
      List.cons_append,strstrLater rfl,List.cons_append,strstrLater rfl,List.cons_append,strstrLater rfl,
      List.cons_append,strstrLater rfl,List.cons_append,List.nil_append]
    rw [strstrLater user]
    show strstr _ (34 :: ascii "role\":") = _
    rw [strstrSkip plain,afterUser,strstrLater rfl,strstrLater rfl]
    exact strstrHere (x := []) rfl
  have exp : strstr (subOpen ++ (claims.userId.1 ++ afterUser claims tail)) (ascii "\"exp\":") =
      some (34 :: (ascii "exp" ++ 34 :: 58 :: (lld claims.exp ++ tail))) := by
    have user := userApart (r := 34 :: (ascii "role" ++ 34 :: 58 :: (lld claims.role.toInt64 ++ 44 :: 34 :: (ascii "exp" ++ 34 :: 58 :: (lld claims.exp ++ tail)))))
      plain (show (34 : UInt8) ∉ ascii "exp" by decide)
    rw [subOpen,List.cons_append,strstrLater rfl,List.cons_append,strstrLater rfl,List.cons_append,strstrLater rfl,
      List.cons_append,strstrLater rfl,List.cons_append,strstrLater rfl,List.cons_append,strstrLater rfl,
      List.cons_append,strstrLater rfl,List.cons_append,List.nil_append]
    rw [strstrLater user]
    show strstr _ (34 :: ascii "exp\":") = _
    rw [strstrSkip plain,afterUser,strstrLater rfl,strstrLater rfl,strstrLater rfl,strstrSkip (by decide),strstrLater rfl,
      strstrLater rfl,strstrSkip (lldQuoteless _),strstrLater rfl]
    exact strstrHere (x := []) rfl
  have user : (claims.userId.1 ++ afterUser claims tail).takeWhile (· ≠ 34) = claims.userId.1 :=
    (Munch.takeStop (p := fun c => decide (c ≠ 34)) (fun c hc => decide_eq_true fun e => plain (e ▸ hc))
      fun y hy => by cases hy; rfl).1
  have quoted : (34 : UInt8) ∈ claims.userId.1 ++ afterUser claims tail := List.mem_append_right _ List.mem_cons_self
  have roleRead : strtoll (lld claims.role.toInt64 ++ 44 :: 34 :: (ascii "exp" ++ 34 :: 58 :: (lld claims.exp ++ tail))) =
      claims.role.toInt64 := strtollStops _ fun y hy => by cases hy; rfl
  have expRead : strtoll (lld claims.exp ++ tail) = claims.exp := strtollStops _ stop
  rw [readClaims,sub,role,exp]
  simp only [Option.bind_eq_bind,Option.bind_some]
  show (if 34 ∉ claims.userId.1 ++ afterUser claims tail then none
    else if strtoll (lld claims.exp ++ tail) < now then none
    else some (⟨memcpy 64 ((claims.userId.1 ++ afterUser claims tail).takeWhile (· ≠ 34)),(strtoll (lld claims.role.toInt64 ++ _)).toInt32,
      strtoll (lld claims.exp ++ tail)⟩ : AuthClaims)) = _
  rw [if_neg (not_not.mpr quoted),expRead,if_neg (Int64.not_lt.mpr future),user,roleRead,bufSelf,Int32.toInt32_toInt64]

/-- The last byte comes back whole or without its low bits, then NULs. -/
theorem readBackLast : ∀ (q : Bytes) (c : UInt8), ∃ x zs, readBack (q ++ [c]) = q ++ x :: zs ∧
    (x = c ∨ x = UInt8.ofNat (c.toNat / 64 * 64)) ∧ zs.head? ∈ [none,some 0]
  | [], c => ⟨c,[0,0],rfl,.inl rfl,by decide⟩
  | [_], c => ⟨c,[0],rfl,.inl rfl,by decide⟩
  | [_,_], _ => ⟨_,[],rfl,.inr rfl,by decide⟩
  | a :: b :: d :: q, c => by
    obtain ⟨x,zs,is,last,end_⟩ := readBackLast q c
    refine ⟨x,zs,?_,last,end_⟩
    cases h : q ++ [c] with
    | nil => exact absurd h (List.append_ne_nil_of_right_ne_nil _ (List.cons_ne_nil _ _))
    | cons e s =>
      rw [h] at is
      rw [List.cons_append,List.cons_append,List.cons_append,h,readBack,is]
      rfl

theorem userPlain (claims : AuthClaims) : (0 : UInt8) ∉ claims.userId.1 := claims.userId.2.1

theorem afterUserSplit (claims : AuthClaims) (tail : Bytes) : afterUser claims tail = afterUser claims [] ++ tail := by
  simp only [afterUser,List.cons_append,List.append_assoc,List.append_nil]

theorem lldTame (v : Int64) : ∀ c ∈ lld v, Tame c ∧ c ≠ 0 := fun c mem => by
  obtain ⟨lo,hi⟩ := lldBytes v c mem
  have lo : 45 ≤ c.toNat := UInt8.le_iff_toNat_le.mp lo
  have hi : c.toNat ≤ 57 := UInt8.le_iff_toNat_le.mp hi
  exact ⟨⟨by omega,by omega⟩,fun e => by subst e; exact absurd lo (by decide)⟩

theorem afterUserTame (claims : AuthClaims) : ∀ c ∈ afterUser claims [], Tame c ∧ c ≠ 0 := by
  have role : (ascii "role").all (fun c => Tame c ∧ c ≠ 0) = true := by decide
  have exp : (ascii "exp").all (fun c => Tame c ∧ c ≠ 0) = true := by decide
  intro c mem
  simp only [afterUser,List.mem_cons,List.mem_append,List.append_nil] at mem
  rcases mem with rfl | rfl | rfl | mem | rfl | rfl | mem | rfl | rfl | mem | rfl | rfl | mem
  · decide
  · decide
  · decide
  · exact of_decide_eq_true (List.all_eq_true.mp role c mem)
  · decide
  · decide
  · exact lldTame _ c mem
  · decide
  · decide
  · exact of_decide_eq_true (List.all_eq_true.mp exp c mem)
  · decide
  · decide
  · exact lldTame _ c mem

/-- The decoded payload of a plain text, read as a C string. -/
theorem decodedPlain {claims : AuthClaims} {past : Bytes} (plain : Plain (encoded (payload claims))) :
    ∃ x, isdigit x = false ∧ cstr (decodeGo (0 :: past) (encoded (payload claims))) =
      subOpen ++ (claims.userId.1 ++ afterUser claims [x]) := by
  obtain ⟨x,zs,is,last,end_⟩ := readBackLast (subOpen ++ (claims.userId.1 ++ afterUser claims [])) 125
  have known : x = 125 ∨ x = 64 := last
  have whole : payload claims = subOpen ++ (claims.userId.1 ++ afterUser claims []) ++ [125] := by
    rw [payloadIs,afterUserSplit,List.append_assoc,List.append_assoc]
  have inside : ∀ c ∈ subOpen ++ (claims.userId.1 ++ afterUser claims []) ++ [x], (decide (c ≠ 0)) = true := by
    intro c mem
    simp only [List.mem_append,List.mem_singleton] at mem
    rcases mem with (mem | mem | mem) | rfl
    · exact List.all_eq_true.mp (show subOpen.all (fun c => decide (c ≠ 0)) = true by decide) c mem
    · exact decide_eq_true fun e => userPlain claims (e ▸ mem)
    · exact decide_eq_true (afterUserTame claims c mem).2
    · rcases known with rfl | rfl <;> decide
  have stop : ∀ y, zs.head? = some y → (decide (y ≠ 0)) = false := fun y hy => by
    rw [hy] at end_
    simp only [List.mem_cons,Option.some.injEq,reduceCtorEq,List.not_mem_nil,or_false,false_or] at end_
    rw [end_]
    rfl
  refine ⟨x,by rcases known with rfl | rfl <;> decide,?_⟩
  rw [decodePlain _ plain,whole,is,← List.singleton_append,← List.append_assoc,cstr,(Munch.takeStop inside stop).1,
    afterUserSplit claims [x],List.append_assoc,List.append_assoc]

/-- The text before the user is read as it was written, whatever the user's first byte. -/
theorem decodedOpen {past : Bytes} (c : UInt8) (s : Bytes) : ∃ d, decodeGo (0 :: past) (encoded (subOpen ++ c :: s)) = subOpen ++ d := by
  obtain ⟨_,s2,s3,_⟩ := sextets 58 34 c
  have lc := c.toNat_lt
  have h2 : seen (sextet 58 34 c 12) = 34 := by rw [seen,if_pos (by rw [s2]; decide),s2]; rfl
  have h3 : seen (sextet 58 34 c 6) = 8 + c.toNat / 64 := by
    have value : sextet 58 34 c 6 = 8 + c.toNat / 64 := s3
    rw [seen,if_pos (by omega),value]
  have h1 : seen (sextet 58 34 c 18) = 14 := by rw [seen,if_pos (by rw [(sextets 58 34 c).1]; decide),(sextets 58 34 c).1]; rfl
  have third : ∀ d < 64, ∃ z, decodeGroup (seen (sextet 58 34 c 18)) (seen (sextet 58 34 c 12)) (seen (sextet 58 34 c 6)) d = [58,34,z] := by
    intro d hd
    rw [h1,h2,h3,decodeGroupIs (by decide) (by decide) (by omega) hd,show 34 % 16 * 16 + (8 + c.toNat / 64) / 4 = 34 by omega]
    exact ⟨_,rfl⟩
  have opened : ∀ e : Bytes, encoded (123 :: 34 :: 115 :: 117 :: 98 :: 34 :: 58 :: e) =
      firstThree 123 34 115 ++ b64Char (sextet 123 34 115 0) :: (firstThree 117 98 34 ++ b64Char (sextet 117 98 34 0) :: encoded (58 :: e)) :=
    fun e => by rw [encoded,encoded]
  have first : ∀ r : Bytes, decodeGo (0 :: past) (firstThree 123 34 115 ++ b64Char (sextet 123 34 115 0) ::
      (firstThree 117 98 34 ++ b64Char (sextet 117 98 34 0) :: r)) = 123 :: 34 :: 115 :: 117 :: 98 :: 34 :: decodeGo (0 :: past) r :=
    fun r => by
      simp only [firstThree,List.cons_append,List.nil_append,decodeGo]
      rfl
  rw [subOpen,List.cons_append,List.cons_append,List.cons_append,List.cons_append,List.cons_append,List.cons_append,
    List.cons_append,opened,first]
  cases s with
  | nil =>
    obtain ⟨z,is⟩ := third 0 (by decide)
    refine ⟨[z],?_⟩
    rw [List.cons_append,List.nil_append,encoded,firstThree,decodeGo,tableSees _ (sextetLess ..),tableSees _ (sextetLess ..),
      tableSees _ (sextetLess ..),is]
    rfl
  | cons e s =>
    obtain ⟨z,is⟩ := third (seen (sextet 58 34 c 0)) (Nat.lt_trans (seenLess _) (by decide))
    refine ⟨z :: decodeGo (0 :: past) (encoded (e :: s)),?_⟩
    have whole : decodeGo (0 :: past) (firstThree 58 34 c ++ b64Char (sextet 58 34 c 0) :: encoded (e :: s)) =
        decodeGroup (seen (sextet 58 34 c 18)) (seen (sextet 58 34 c 12)) (seen (sextet 58 34 c 6)) (seen (sextet 58 34 c 0)) ++
          decodeGo (0 :: past) (encoded (e :: s)) := by
      simp only [firstThree,List.cons_append,List.nil_append,decodeGo,tableSees _ (sextetLess ..)]
    rw [List.cons_append,List.nil_append,encoded,whole,is]
    rfl

/-- What was read as the claims was written as them. -/
theorem readUser {claims : AuthClaims} {d : Bytes} {now : Int64} (read : readClaims (subOpen ++ cstr d) now = some claims) :
    34 ∉ claims.userId.1 ∧ claims.userId.1 <+: d := by
  have sub : strstr (subOpen ++ cstr d) (ascii "\"sub\":\"") = some (34 :: 115 :: 117 :: 98 :: 34 :: 58 :: 34 :: cstr d) := by
    rw [subOpen,List.cons_append,strstrLater rfl]
    exact strstrHere (x := []) rfl
  rw [readClaims,sub] at read
  simp only [Option.bind_eq_bind,Option.bind_some] at read
  split at read
  · cases read
  · obtain ⟨role,_,read⟩ := Option.bind_eq_some_iff.mp read
    obtain ⟨exp,_,read⟩ := Option.bind_eq_some_iff.mp read
    split at read
    · cases read
    · have is : cstr (((cstr d).takeWhile (· ≠ 34)).take 63) = claims.userId.1 :=
        congrArg (fun c => c.userId.1) (Option.some.inj read)
      have first : claims.userId.1 <+: (cstr d).takeWhile (· ≠ 34) :=
        is ▸ (List.takeWhile_prefix _).trans (List.take_prefix _ _)
      exact ⟨fun mem => absurd (List.mem_takeWhile_imp (first.subset mem)) (by decide),
        first.trans ((List.takeWhile_prefix _).trans (List.takeWhile_prefix _))⟩

/-- A verified token was plain: every byte of the user came back. -/
theorem plainRead {claims : AuthClaims} {past : Bytes} {now : Int64}
    (read : readClaims (cstr (decodeGo (0 :: past) (encoded (payload claims)))) now = some claims) :
    34 ∉ claims.userId.1 ∧ Plain (encoded (payload claims)) := by
  obtain ⟨c,s,head⟩ : ∃ c s, claims.userId.1 ++ afterUser claims [125] = c :: s :=
    List.exists_cons_of_ne_nil (List.append_ne_nil_of_right_ne_nil _ (List.cons_ne_nil _ _))
  obtain ⟨d,opened⟩ := @decodedOpen past c s
  rw [← head,← payloadIs] at opened
  have text : cstr (subOpen ++ d) = subOpen ++ cstr d := List.takeWhile_append_of_pos fun c mem =>
    List.all_eq_true.mp (show subOpen.all (fun c => decide (c ≠ 0)) = true by decide) c mem
  have found := read
  rw [opened,text] at found
  obtain ⟨quoteless,t,user⟩ := readUser found
  refine ⟨quoteless,@plainFrom past _ fun k c here => ?_⟩
  rw [opened]
  rw [payloadIs] at here
  by_cases early : k < subOpen.length
  · rw [List.getElem?_append_left early] at here
    exact .inr (by rw [List.getElem?_append_left early,here])
  · rw [List.getElem?_append_right (Nat.not_lt.mp early)] at here ⊢
    by_cases inUser : k - subOpen.length < claims.userId.1.length
    · rw [List.getElem?_append_left inUser] at here
      exact .inr (by rw [← user,List.getElem?_append_left inUser,here])
    · rw [List.getElem?_append_right (Nat.not_lt.mp inUser)] at here
      have mem := List.mem_of_getElem? here
      rw [afterUserSplit] at mem
      rcases List.mem_append.mp mem with mem | mem
      · exact .inl (afterUserTame claims c mem).1
      · rw [List.mem_singleton.mp mem]
        exact .inl (by decide)

/-- Which claims come back: no quote in the user's name, no sextet of 62 or 63 in the payload, and a buffer that
holds the whole token. -/
theorem tokenReadBack {hmac : Hmac} {secret : Bytes} {claims : AuthClaims} {tokenLen : Nat} {now : Int64} (future : now ≤ claims.exp) :
    RoundTrips hmac secret claims tokenLen now ↔ 34 ∉ claims.userId.1 ∧ Plain (encoded (payload claims)) ∧
      (tokenText hmac secret claims).length < tokenLen := by
  have token : RoundTrips hmac secret claims tokenLen now ↔
      authJwtVerify hmac secret ((tokenText hmac secret claims).take (tokenLen - 1)) now = some claims := by
    rw [RoundTrips,signIs]
    exact ⟨fun h => h _ rfl,fun h _ same => by cases same; exact h⟩
  have some_ : 0 < (tokenText hmac secret claims).length := by
    rw [tokenText,List.length_append,List.length_cons]
    omega
  rw [token]
  by_cases cut : (tokenText hmac secret claims).length < tokenLen
  · rw [List.take_of_length_le (by omega),verifyWhole]
    constructor
    · intro read
      obtain ⟨quoteless,plain⟩ := plainRead read
      exact ⟨quoteless,plain,cut⟩
    · rintro ⟨quoteless,plain,_⟩
      obtain ⟨x,noDigit,is⟩ := @decodedPlain _ (sigText hmac secret claims) plain
      rw [is]
      exact readsClaims quoteless future fun y hy => by cases hy; exact noDigit
  · refine iff_of_false (fun read => ?_) fun h => cut h.2.2
    rw [verifyCut hmac secret claims now (by omega)] at read
    cases read

def alice : AuthClaims := ⟨⟨ascii "alice",by decide,by decide⟩,1,2000000000⟩

/-- The HMAC of alice's token under the secret `secret`. -/
def aliceHmac : Hmac := fun _ _ => ⟨[78,44,193,211,116,15,9,35,211,174,8,207,244,234,219,237,78,
  123,233,245,164,139,226,212,133,182,86,140,37,142,218,148],rfl⟩

theorem aliceReadBack : RoundTrips aliceHmac (ascii "secret") alice 1024 1900000000 :=
  (tokenReadBack (by decide)).mpr ⟨by decide,by decide,by decide +kernel⟩

/-- A user whose name goes on like a claim. -/
def claimant : AuthClaims := ⟨⟨ascii "x\",\"role\":0,\"y",by decide,by decide⟩,2,2000000000⟩

theorem nameBecomesRole : ¬ RoundTrips aliceHmac (ascii "secret") claimant 1024 1900000000 := fun back =>
  absurd ((tokenReadBack (by decide)).mp back).1 (by decide)

end Napastak.Auth
