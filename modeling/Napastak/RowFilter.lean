import Napastak.Access

/-! When `rbac_row_filter` returns the policy's filter: the text with the user's id in the place of every token, in
a buffer of 1024 bytes. -/
namespace Napastak.Access

/-- The filter as it is meant: the id for every token. -/
def expand (uid : Bytes) : Bytes → Bytes
  | [] => []
  | c :: rest => if userToken.isPrefixOf (c :: rest) then uid ++ expand uid (rest.drop 8) else c :: expand uid rest
termination_by f => f.length
decreasing_by all_goals simp_wf <;> omega

/-- The first policy with a filter that is about the role and the table. -/
def matching (fnmatch : Bytes → Bytes → Bool) (s : RbacStore) (claims : AuthClaims) (tableName : Bytes) : Option RbacPolicy :=
  s.policies.find? fun p => p.role = claims.role ∧ p.rowFilter ≠ [] ∧ p.covers fnmatch tableName

/-- A matching policy's filter is returned, for this user and otherwise as it stands; none only where none matches. -/
def Restricts (fnmatch : Bytes → Bytes → Bool) (s : RbacStore) (claims : AuthClaims) (tableName : Bytes) : Prop :=
  rbacRowFilter fnmatch s claims tableName =
    (matching fnmatch s claims tableName).map fun p => expand claims.userId p.rowFilter

def hasToken (filter : Bytes) : Bool := filter.tails.any fun t => userToken.isPrefixOf t

def endsInToken : Bytes → Bool
  | [] => false
  | c :: rest =>
    if userToken.isPrefixOf (c :: rest) then rest.drop 8 = [] || endsInToken (rest.drop 8) else endsInToken rest
termination_by f => f.length
decreasing_by all_goals simp_wf <;> omega

/-- The expansion has at most 1020 bytes, fewer where an id ends it. -/
def Fits (uid filter : Bytes) : Prop :=
  (expand uid filter).length ≤ 1020 ∧ (endsInToken filter = true → uid ≠ [] → (expand uid filter).length < 1020)

instance (uid filter : Bytes) : Decidable (Fits uid filter) := inferInstanceAs (Decidable (_ ∧ _))

section
variable {uid : Bytes}

theorem expandNil : expand uid [] = [] := by rw [expand]

theorem endsNil : endsInToken [] = false := by rw [endsInToken]

theorem substNil (out : Bytes) : substUser uid [] out = out := by rw [substUser]

theorem expandSome (some_ : uid ≠ []) {f : Bytes} (h : expand uid f = []) : f = [] := by
  cases f with
  | nil => rfl
  | cons c rest =>
    rw [expand] at h
    split at h
    · exact absurd (List.append_eq_nil_iff.mp h).1 some_
    · cases h

theorem substShort (f out : Bytes) (small : out.length ≤ 1020) : (substUser uid f out).length ≤ 1020 := by
  fun_induction substUser uid f out with
  | case1 => exact small
  | case2 => exact small
  | case3 out c rest room token ih =>
    refine ih ?_
    split
    · rw [List.length_append]
      omega
    · exact small
  | case4 out c rest room token ih =>
    refine ih ?_
    rw [List.length_append,List.length_singleton]
    omega

/-- What the loop writes is the expansion where it has room for all of it. -/
theorem substExact (f out : Bytes) (small : out.length ≤ 1020) : substUser uid f out = out ++ expand uid f ↔
    out.length + (expand uid f).length ≤ 1020 ∧
      (endsInToken f = true → uid ≠ [] → out.length + (expand uid f).length < 1020) := by
  fun_induction substUser uid f out with
  | case1 out =>
    rw [expandNil,endsNil,List.append_nil]
    exact iff_of_true rfl ⟨small,fun e => by cases e⟩
  | case2 out c rest full =>
    constructor
    · intro same
      have none_ : expand uid (c :: rest) = [] := List.append_cancel_left ((List.append_nil _).trans same).symm
      rw [none_]
      exact ⟨small,fun _ some_ => absurd (expandSome some_ none_) (List.cons_ne_nil _ _)⟩
    · rintro ⟨total,_⟩
      have none_ : expand uid (c :: rest) = [] := List.eq_nil_of_length_eq_zero (by omega)
      rw [none_,List.append_nil]
  | case3 out c rest room token ih =>
    rw [expand,if_pos token,endsInToken,if_pos token]
    by_cases fits : out.length + uid.length < 1020
    · rw [dif_pos fits] at ih
      rw [if_pos fits]
      have here := ih (by rw [List.length_append]; omega)
      rw [← List.append_assoc,here,List.length_append,List.length_append,Nat.add_assoc]
      by_cases last : rest.drop 8 = []
      · rw [last,expandNil,endsNil]
        exact iff_of_true ⟨by rw [List.length_nil]; omega,fun e => by cases e⟩ ⟨by rw [List.length_nil]; omega,fun _ _ => fits⟩
      · rw [decide_eq_false last,Bool.false_or]
    · rw [dif_neg fits] at ih
      rw [if_neg fits]
      have some_ : uid ≠ [] := fun none_ => by
        rw [none_,List.length_nil] at fits
        omega
      refine iff_of_false (fun same => ?_) ?_
      · have short := @substShort uid (rest.drop 8) out small
        rw [same,List.length_append,List.length_append] at short
        have none_ : expand uid (rest.drop 8) = [] := List.eq_nil_of_length_eq_zero (by omega)
        rw [expandSome some_ none_,substNil,expandNil,List.append_nil] at same
        exact some_ (List.append_cancel_left ((List.append_nil _).trans same).symm)
      · rintro ⟨total,ends⟩
        rw [List.length_append] at total ends
        have none_ : expand uid (rest.drop 8) = [] := List.eq_nil_of_length_eq_zero (by omega)
        rw [expandSome some_ none_] at ends
        exact fits (Nat.lt_of_le_of_lt (by omega) (ends rfl some_))
  | case4 out c rest room token ih =>
    rw [expand,if_neg token,endsInToken,if_neg token]
    have here := ih (by rw [List.length_append,List.length_singleton]; omega)
    rw [List.append_assoc,List.singleton_append,List.length_append,List.length_singleton] at here
    rw [here,List.length_cons,Nat.add_assoc,Nat.add_comm 1]

theorem expandPlain {f : Bytes} (plain : hasToken f = false) : expand uid f = f := by
  induction f with
  | nil => exact expandNil
  | cons c rest ih =>
    rw [hasToken,List.tails,List.any_cons,Bool.or_eq_false_iff] at plain
    rw [expand,if_neg (by rw [plain.1]; exact Bool.false_ne_true),ih plain.2]

end

section
variable {fnmatch : Bytes → Bytes → Bool} {s : RbacStore} {claims : AuthClaims} {tableName : Bytes}

theorem rowFilterOpen (exempt : (!s.enabled || claims.role = roleAdmin) = true) : rbacRowFilter fnmatch s claims tableName = none := by
  rw [rbacRowFilter,if_pos exempt]

theorem matchingIs : (s.policies.filter fun p => p.role = claims.role ∧ p.rowFilter ≠ []).find?
    (fun p => p.covers fnmatch tableName) = matching fnmatch s claims tableName := by
  rw [List.find?_filter,matching]
  congr 1
  funext p
  simp only [decide_eq_true_eq,and_assoc]

theorem rowFilterOf (bound : (!s.enabled || claims.role = roleAdmin) = false) :
    rbacRowFilter fnmatch s claims tableName = (matching fnmatch s claims tableName).bind fun p =>
      if hasToken p.rowFilter then
        if safeUserId claims.userId then some (substUser claims.userId p.rowFilter []) else none
      else some p.rowFilter := by
  rw [rbacRowFilter,if_neg (by rw [bound]; exact Bool.false_ne_true),matchingIs]
  cases matching fnmatch s claims tableName <;> rfl

/-- When the users a policy is for are held to it: no policy matches, or access control is on for them, and a filter
with a token meets an id without quotes that leaves it within the buffer. -/
theorem filterRestricts : Restricts fnmatch s claims tableName ↔ ∀ p, matching fnmatch s claims tableName = some p →
    s.enabled = true ∧ claims.role ≠ roleAdmin ∧
      (hasToken p.rowFilter = true → safeUserId claims.userId = true ∧ Fits claims.userId p.rowFilter) := by
  cases found : matching fnmatch s claims tableName with
  | none =>
    refine iff_of_true ?_ fun p h => nomatch h
    cases exempt : (!s.enabled || claims.role = roleAdmin : Bool) with
    | true => rw [Restricts,rowFilterOpen exempt,found]; rfl
    | false => rw [Restricts,rowFilterOf exempt,found]; rfl
  | some p =>
    cases exempt : (!s.enabled || claims.role = roleAdmin : Bool) with
    | true =>
      refine iff_of_false (fun holds => ?_) fun h => ?_
      · rw [Restricts,rowFilterOpen exempt,found] at holds
        cases holds
      · obtain ⟨on,user,_⟩ := h p rfl
        rw [on,decide_eq_false user] at exempt
        cases exempt
    | false =>
      have bound := Bool.or_eq_false_iff.mp exempt
      have on : s.enabled = true := (Bool.not_eq_false' ..).mp bound.1
      have user : claims.role ≠ roleAdmin := of_decide_eq_false bound.2
      rw [Restricts,rowFilterOf exempt,found,Option.bind_some,Option.map_some]
      have whole := @substExact claims.userId p.rowFilter [] (Nat.zero_le _)
      rw [List.nil_append,List.length_nil,Nat.zero_add] at whole
      cases token : hasToken p.rowFilter with
      | false =>
        rw [expandPlain token]
        refine iff_of_true rfl fun q h => ?_
        cases h
        exact ⟨on,user,fun h => by rw [token] at h; cases h⟩
      | true =>
        cases safe : safeUserId claims.userId with
        | false =>
          refine iff_of_false (fun h => nomatch h) fun h => ?_
          have := ((h p rfl).2.2 token).1
          cases this
        | true =>
          simp only [if_true,Option.some.injEq]
          constructor
          · intro same q h
            cases h
            exact ⟨on,user,fun _ => ⟨trivial,whole.mp same⟩⟩
          · intro h
            exact whole.mpr ((h p rfl).2.2 token).2

end

/-- A user whose name has a quote gets no filter at all. -/
theorem quotedNameUnfiltered : ¬ Restricts (fun pat name => pat = name)
    ⟨true,[⟨roleAnalyst,ascii "orders",1,ascii "owner = '\x7buser_id\x7d'"⟩]⟩ ⟨ascii "o'hara",roleAnalyst⟩ (ascii "orders") :=
  fun holds => by
    have := (filterRestricts.mp holds ⟨roleAnalyst,ascii "orders",1,ascii "owner = '\x7buser_id\x7d'"⟩ (by decide)).2.2 (by decide)
    exact absurd this.1 (by decide)

end Napastak.Access
