import Governance.Lib.Utf8Decode
import Governance.Emit.Encode

/-!
# The same numbers on both paths

A parsed row is written to PostgreSQL by unchecked casts and sent as a log record by checked
conversions. When the two carry the same integers, and the numbers of the row at that.
-/

namespace Governance

open CopilotEnv

namespace Emit

/-! ## The casts -/

/-- A count survives the cast to `i64` exactly below 2^63. -/
theorem asI64_eq_self_iff {n : ℕ} : asI64 n = n ↔ n < 2 ^ 63 := by
  unfold asI64
  constructor
  · intro h
    have hlt := Int.bmod_lt (x := (n : ℤ)) (m := 2 ^ 64) (by decide)
    rw [h] at hlt
    omega
  · intro h
    apply Int.bmod_eq_of_le <;> omega

/-- The whole credits of a debt are the negated whole credits of the amount owed. -/
theorem credits_of_neg {cost : ℤ} (h : cost < 0) :
    cost.tdiv creditMicroUsd = -(-cost / creditMicroUsd) := by
  rw [← Int.tdiv_eq_ediv_of_nonneg (by omega), Int.neg_tdiv, neg_neg]

/-- The whole credits are negative exactly for a debt of a credit or more. -/
theorem credits_nonneg_iff {cost : ℤ} :
    0 ≤ cost.tdiv creditMicroUsd ↔ -creditMicroUsd < cost := by
  rcases le_or_gt 0 cost with hpos | hneg
  · rw [Int.tdiv_eq_ediv_of_nonneg hpos]
    unfold creditMicroUsd
    omega
  · rw [credits_of_neg hneg]
    unfold creditMicroUsd
    omega

/-- The whole credits of an `i64` amount are far inside `i64`. -/
theorem credits_bounds {cost : ℤ} (hmin : i64Min ≤ cost) (hmax : cost ≤ i64Max) :
    -2 ^ 63 ≤ cost.tdiv creditMicroUsd ∧ cost.tdiv creditMicroUsd < 2 ^ 63 := by
  unfold i64Min at hmin
  unfold i64Max at hmax
  rcases le_or_gt 0 cost with hpos | hneg
  · rw [Int.tdiv_eq_ediv_of_nonneg hpos]
    unfold creditMicroUsd
    omega
  · rw [credits_of_neg hneg]
    unfold creditMicroUsd
    omega

/-- An `i64` survives the cast to `u64` exactly when it is not negative; a negative one lands
beyond what the encoder accepts. -/
theorem asU64_lt_iff {n : ℤ} (hmin : -2 ^ 63 ≤ n) (hmax : n < 2 ^ 63) :
    asU64 n < 2 ^ 63 ↔ 0 ≤ n := by
  unfold asU64
  omega

theorem asU64_of_nonneg {n : ℤ} (hnonneg : 0 ≤ n) (hmax : n < 2 ^ 63) : (asU64 n : ℤ) = n := by
  unfold asU64
  omega

/-! ## Rows of one payload -/

section Rows

variable (env : CopilotEnv) (tenantId org : String)

/-- What is bound, what is sent and what the row says are the same integers. -/
structure SameUserNumbers (r : UserDaily) (row : UserDailyRow) (record : LogRecordData) :
    Prop where
  sentInteractions : attrInt record.attributes "total_interactions" = some row.totalInteractions
  sentCompletions : attrInt record.attributes "total_completions" = some row.codeGenerations
  sentCredits : attrInt record.attributes "ai_credits" = some row.aiCredits
  sentCost : attrInt record.attributes "net_cost_micro_usd" = some row.netCostMicroUsd
  interactions : row.totalInteractions = r.totalInteractions
  completions : row.codeGenerations = r.totalCompletions
  credits : row.aiCredits = r.netCostMicroUsd.tdiv creditMicroUsd
  cost : row.netCostMicroUsd = r.netCostMicroUsd

structure SameRepoNumbers (r : RepoDaily) (row : RepoDailyRow) (record : LogRecordData) :
    Prop where
  sentCoding : attrInt record.attributes "coding_agent_activity" = some row.codingAgentActivity
  sentReview : attrInt record.attributes "code_review_activity" = some row.codeReviewActivity
  sentPull : attrInt record.attributes "pull_request_activity" = some row.pullRequestActivity
  coding : row.codingAgentActivity = r.codingAgentActivity
  review : row.codeReviewActivity = r.codeReviewActivity
  pull : row.pullRequestActivity = r.pullRequestActivity

/-- A user row that the store takes is one that the encoder takes, with the same numbers. -/
def UserPathsAgree (r : UserDaily) : Prop :=
  ∀ row, env.userDailyRow tenantId org r = some row →
    ∃ record, encodeUserDaily tenantId org r = .ok record ∧ SameUserNumbers r row record

/-- A repository row that the store takes is one that the encoder takes, with the same numbers. -/
def RepoPathsAgree (r : RepoDaily) : Prop :=
  ∀ row, env.repoDailyRow tenantId org r = some row →
    ∃ record, encodeRepoDaily tenantId org r = .ok record ∧ SameRepoNumbers r row record

variable {env tenantId org}

theorem attrInt_encodeUserDaily {r : UserDaily} {record : LogRecordData}
    (h : encodeUserDaily tenantId org r = .ok record) :
    attrInt record.attributes "total_interactions" = some (r.totalInteractions : ℤ) ∧
      attrInt record.attributes "total_completions" = some (r.totalCompletions : ℤ) ∧
      attrInt record.attributes "ai_credits" = some (r.aiCredits : ℤ) ∧
      attrInt record.attributes "net_cost_micro_usd" = some r.netCostMicroUsd := by
  rw [(encodeUserDaily_eq_ok h).2]
  simp [attrInt, common]

theorem attrInt_encodeRepoDaily {r : RepoDaily} {record : LogRecordData}
    (h : encodeRepoDaily tenantId org r = .ok record) :
    attrInt record.attributes "coding_agent_activity" = some (r.codingAgentActivity : ℤ) ∧
      attrInt record.attributes "code_review_activity" = some (r.codeReviewActivity : ℤ) ∧
      attrInt record.attributes "pull_request_activity" = some (r.pullRequestActivity : ℤ) := by
  rw [(encodeRepoDaily_eq_ok h).2]
  simp [attrInt, common]

theorem repoPathsAgree_iff {r : RepoDaily} :
    RepoPathsAgree env tenantId org r ↔ env.castDate r.reportDay = none ∨
      (r.codingAgentActivity < 2 ^ 63 ∧ r.codeReviewActivity < 2 ^ 63 ∧
        r.pullRequestActivity < 2 ^ 63) := by
  unfold RepoPathsAgree repoDailyRow
  cases hday : env.castDate r.reportDay with
  | none => simp
  | some day =>
    simp only [Option.map_some, Option.some.injEq, forall_eq', reduceCtorEq, false_or]
    constructor
    · rintro ⟨record, hrecord, -⟩
      exact (encodeRepoDaily_eq_ok hrecord).1
    · rintro ⟨hcoding, hreview, hpull⟩
      obtain ⟨record, hrecord⟩ : ∃ record, encodeRepoDaily tenantId org r = .ok record :=
        encodeRepoDaily_isOk hcoding hreview hpull
      obtain ⟨hc, hr, hp⟩ := attrInt_encodeRepoDaily hrecord
      have hcoding := asI64_eq_self_iff.2 hcoding
      have hreview := asI64_eq_self_iff.2 hreview
      have hpull := asI64_eq_self_iff.2 hpull
      refine ⟨record, hrecord, ?_⟩
      constructor <;> simp only [hc, hr, hp, hcoding, hreview, hpull]

/-- A parsed user row carries the whole credits of its money, cast to `u64`. -/
theorem userPathsAgree_iff {r : UserDaily}
    (hcredits : r.aiCredits = asU64 (r.netCostMicroUsd.tdiv creditMicroUsd))
    (hmin : i64Min ≤ r.netCostMicroUsd) (hmax : r.netCostMicroUsd ≤ i64Max) :
    UserPathsAgree env tenantId org r ↔ env.castDate r.reportDay = none ∨
      (r.totalInteractions < 2 ^ 63 ∧ r.totalCompletions < 2 ^ 63 ∧
        -creditMicroUsd < r.netCostMicroUsd) := by
  obtain ⟨hlow, hhigh⟩ := credits_bounds hmin hmax
  have haccepted : r.aiCredits < 2 ^ 63 ↔ -creditMicroUsd < r.netCostMicroUsd := by
    rw [hcredits, asU64_lt_iff hlow hhigh, credits_nonneg_iff]
  unfold UserPathsAgree userDailyRow
  cases hday : env.castDate r.reportDay with
  | none => simp
  | some day =>
    simp only [Option.map_some, Option.some.injEq, forall_eq', reduceCtorEq, false_or]
    constructor
    · rintro ⟨record, hrecord, -⟩
      obtain ⟨hinteractions, hcompletions, hcount⟩ := (encodeUserDaily_eq_ok hrecord).1
      exact ⟨hinteractions, hcompletions, haccepted.mp hcount⟩
    · rintro ⟨hinteractions, hcompletions, hcost⟩
      have hcount := haccepted.mpr hcost
      obtain ⟨record, hrecord⟩ : ∃ record, encodeUserDaily tenantId org r = .ok record :=
        encodeUserDaily_isOk hinteractions hcompletions hcount
      obtain ⟨hi, hc, ha, hn⟩ := attrInt_encodeUserDaily hrecord
      have hinteractions := asI64_eq_self_iff.2 hinteractions
      have hcompletions := asI64_eq_self_iff.2 hcompletions
      have hcount := asI64_eq_self_iff.2 hcount
      -- The cast of the credits to `u64` kept them because they are not negative.
      have hkept : (r.aiCredits : ℤ) = r.netCostMicroUsd.tdiv creditMicroUsd := by
        rw [hcredits, asU64_of_nonneg (credits_nonneg_iff.2 hcost) hhigh]
      refine ⟨record, hrecord, ?_⟩
      constructor <;> simp only [hi, hc, ha, hn, hinteractions, hcompletions, hcount, hkept]

end Rows

theorem normalizeUser_numbers {env : CopilotEnv}
    (hmoney : ∀ bits, i64Min ≤ env.creditsToMicroUsd bits ∧ env.creditsToMicroUsd bits ≤ i64Max)
    {row : UserReportRow} {r : UserDaily} (h : env.normalizeUser row = some r) :
    r.aiCredits = asU64 (r.netCostMicroUsd.tdiv creditMicroUsd) ∧
      i64Min ≤ r.netCostMicroUsd ∧ r.netCostMicroUsd ≤ i64Max := by
  obtain ⟨userId, -, rfl⟩ := Option.map_eq_some_iff.mp h
  exact ⟨rfl, hmoney _⟩

/-- Every user and repository row of a payload is carried alike by both paths, unless its day is
no date and the store refuses it, exactly if its counts are below 2^63 and its money is not a debt
of a credit or more. -/
theorem paths_agree_iff (env : CopilotEnv)
    (hmoney : ∀ bits, i64Min ≤ env.creditsToMicroUsd bits ∧ env.creditsToMicroUsd bits ≤ i64Max)
    (tenantId org report day : String) (bytes : ByteLines.Bytes) :
    (∀ rows, env.parseUserDaily bytes report day = .ok rows → ∀ r ∈ rows,
      (UserPathsAgree env tenantId org r ↔ env.castDate r.reportDay = none ∨
        (r.totalInteractions < 2 ^ 63 ∧ r.totalCompletions < 2 ^ 63 ∧
          -creditMicroUsd < r.netCostMicroUsd))) ∧
    ∀ rows, env.parseRepoDaily bytes report day = .ok rows → ∀ r ∈ rows,
      (RepoPathsAgree env tenantId org r ↔ env.castDate r.reportDay = none ∨
        (r.codingAgentActivity < 2 ^ 63 ∧ r.codeReviewActivity < 2 ^ 63 ∧
          r.pullRequestActivity < 2 ^ 63)) := by
  refine ⟨fun rows hrows => ?_, fun rows _ r _ => repoPathsAgree_iff⟩
  refine forall_parseLines hrows fun row r hr => ?_
  obtain ⟨hcredits, hmin, hmax⟩ := normalizeUser_numbers hmoney hr
  exact userPathsAgree_iff hcredits hmin hmax

/-! ## A payload of three lines -/

deriving instance DecidableEq for UserDaily

/-- The lines of a user report: a usual one, one whose count is 2^63, and one with a debt of one
credit. -/
def usualLine : ByteLines.Bytes :=
  Utf8Text.encode "\x7b\"user_id\":\"u1\",\"day\":\"2026-08-01\",\"ai_credits\":2.5\x7d".toList

def hugeLine : ByteLines.Bytes :=
  Utf8Text.encode ("\x7b\"user_id\":\"u2\",\"day\":\"2026-08-01\"," ++
    "\"total_engagements\":9223372036854775808\x7d").toList

def debtLine : ByteLines.Bytes :=
  Utf8Text.encode "\x7b\"user_id\":\"u3\",\"day\":\"2026-08-01\",\"ai_credits\":-1.0\x7d".toList

/-- What the libraries make of these lines. -/
def threeLines : CopilotEnv where
  orgRow := fun _ => none
  userRow := fun line =>
    if line = usualLine then some ⟨some "u1", none, "2026-08-01", none, none,
      some 0x4004000000000000⟩
    else if line = hugeLine then some ⟨some "u2", none, "2026-08-01", some (2 ^ 63), none, none⟩
    else if line = debtLine then some ⟨some "u3", none, "2026-08-01", none, none,
      some 0xBFF0000000000000⟩
    else none
  repoRow := fun _ => none
  teamRow := fun _ => none
  seatPages := fun _ => none
  creditsToMicroUsd := fun bits =>
    if bits = 0x4004000000000000 then 25000
    else if bits = 0xBFF0000000000000 then -10000
    else 0
  parseFromRfc3339 := fun _ => none
  castDate := fun text => if text = "2026-08-01" then some 1 else none
  dateText := fun _ => "2026-08-01"
  castDate_dateText := by
    intro text day h
    split at h
    · obtain rfl := Option.some.inj h
      rfl
    · cases h

theorem threeLines_money (bits : UInt64) :
    i64Min ≤ threeLines.creditsToMicroUsd bits ∧
      threeLines.creditsToMicroUsd bits ≤ i64Max := by
  unfold threeLines i64Min i64Max
  simp only
  split
  · decide
  · split <;> decide

/-- The row of the usual line. -/
def usualRow : UserDaily := ⟨"u1", "", "2026-08-01", 0, 0, 2, 25000⟩

theorem paths_agree_usual : UserPathsAgree threeLines "acme" "octo" usualRow :=
  ((paths_agree_iff threeLines threeLines_money "acme" "octo" "users-1-day" "2026-08-01"
    usualLine).1 [usualRow] (by decide +kernel) usualRow List.mem_cons_self).mpr
      (.inr (by decide +kernel))

/-- A count of 2^63 is stored as a negative number and refused by the encoder; a debt of one
credit is stored as one negative credit and refused as well. -/
theorem huge_count_stored_negative :
    ((threeLines.parseUserDaily (hugeLine ++ 10 :: debtLine) "users-1-day" "2026-08-01").map
      fun rows => rows.map fun r =>
        ((threeLines.userDailyRow "acme" "octo" r).map fun row =>
            (row.totalInteractions, row.aiCredits),
          (encodeUserDaily "acme" "octo" r).toOption.isSome)) =
      .ok [(some (-2 ^ 63, 0), false), (some (0, -1), false)] := by
  decide +kernel

end Emit

end Governance
