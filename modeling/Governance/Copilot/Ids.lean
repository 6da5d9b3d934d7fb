import Governance.Copilot.Store

/-!
# Primary keys and natural keys

The id of a row is a text joined from some of the columns of its natural key. Two rows of one
table can share it while their natural keys differ: in a column that the id leaves out (the
organization, the team, the provider), or because columns with colons run together to the same
text. The second such row is refused, and with it its report. Without such a pair every report
is stored.
-/

namespace Governance

/-- What a row brings to its keys: the texts joined in the id, and the columns of the natural key
that the id leaves out. -/
structure Offer where
  parts : List String
  omitted : List String
  deriving DecidableEq

/-- Texts joined with colons. -/
def joinColons : List String → String
  | [] => ""
  | [part] => part
  | part :: next :: parts => part ++ ":" ++ joinColons (next :: parts)

/-- Joined texts that agree up to their last part agree in it too. -/
theorem joinColons_last_inj {init : List String} {last last' : String}
    (h : joinColons (init ++ [last]) = joinColons (init ++ [last'])) : last = last' := by
  induction init with
  | nil => exact h
  | cons part init ih =>
    have hcons (l : String) :
        joinColons (part :: (init ++ [l])) = part ++ ":" ++ joinColons (init ++ [l]) := by
      cases init <;> rfl
    rw [List.cons_append, List.cons_append, hcons, hcons] at h
    exact ih ((String.append_right_inj _).mp h)

namespace Offer

/-- The text of the id after the kind of the row. -/
def joined (o : Offer) : String := joinColons o.parts

/-- Two offers that one id cannot tell apart: they differ in a column that the id leaves out, or
in the joined columns, whose texts run together. -/
def Clash (o o' : Offer) : Prop :=
  (o.parts = o'.parts ∧ o.omitted ≠ o'.omitted) ∨ (o.parts ≠ o'.parts ∧ o.joined = o'.joined)

theorem not_clash_iff {o o' : Offer} : ¬ o.Clash o' ↔ (o.joined = o'.joined → o = o') := by
  constructor
  · intro h hjoined
    have hparts : o.parts = o'.parts := by
      by_contra hne
      exact h (.inr ⟨hne, hjoined⟩)
    have homitted : o.omitted = o'.omitted := by
      by_contra hne
      exact h (.inl ⟨hparts, hne⟩)
    cases o
    cases o'
    simp_all
  · rintro h (⟨hparts, hne⟩ | ⟨hne, hjoined⟩)
    · exact hne (congrArg omitted (h (congrArg joinColons hparts)))
    · exact hne (congrArg parts (h hjoined))

end Offer

namespace CopilotEnv

variable (env : CopilotEnv)

/-! ## What a sequence of calls offers to each table -/

/-- The rows with a day that casts, each with what it brings to its keys. -/
def offersOf {σ ρ : Type} (bindRow : σ → Option ρ) (offer : σ → Offer) (rows : List σ) :
    List (Offer × ρ) :=
  rows.filterMap fun r => (bindRow r).map fun row => (offer r, row)

def orgOffers (calls : List StoreCall) : List (Offer × OrgDailyRow) :=
  calls.flatMap fun
    | .upsertOrgDaily tenantId rows => offersOf (env.orgDailyRow tenantId)
        (fun r => ⟨[tenantId, r.organizationId, r.reportDay], []⟩) rows
    | _ => []

def userOffers (calls : List StoreCall) : List (Offer × UserDailyRow) :=
  calls.flatMap fun
    | .upsertUserDaily tenantId organizationId rows =>
      offersOf (env.userDailyRow tenantId organizationId)
        (fun r => ⟨[tenantId, r.providerUserId, r.reportDay], [organizationId]⟩) rows
    | _ => []

def repoOffers (calls : List StoreCall) : List (Offer × RepoDailyRow) :=
  calls.flatMap fun
    | .upsertRepoDaily tenantId organizationId rows =>
      offersOf (env.repoDailyRow tenantId organizationId)
        (fun r => ⟨[tenantId, r.repositoryId, r.reportDay], [organizationId]⟩) rows
    | _ => []

def teamOffers (calls : List StoreCall) : List (Offer × UserTeamsRow) :=
  calls.flatMap fun
    | .upsertUserTeam tenantId organizationId rows =>
      offersOf (env.userTeamsRow tenantId organizationId)
        (fun r => ⟨[tenantId, r.userId, r.reportDay], [organizationId, r.teamId]⟩) rows
    | _ => []

def seatOffers (calls : List StoreCall) : List (Offer × SeatSnapshotRow) :=
  calls.flatMap fun
    | .upsertSeatSnapshot tenantId organizationId rows =>
      offersOf (env.seatSnapshotRow tenantId organizationId)
        (fun r => ⟨[tenantId, r.providerUserId, r.snapshotDay], [organizationId]⟩) rows
    | _ => []

def manifestOffers (calls : List StoreCall) : List (Offer × ManifestRow) :=
  calls.flatMap fun
    | .upsertManifest m => offersOf env.manifestRow
        (fun m => ⟨[m.tenantId, m.scopeId, m.reportType, m.day], [m.provider]⟩) [m]
    | _ => []

end CopilotEnv

/-! ## One table -/

section OneTable

variable {ρ κ : Type} {ix : TableIndex ρ κ String}

/-- Rows with different natural keys have different ids. -/
def IdsTellApart (ix : TableIndex ρ κ String) (offers : List (Offer × ρ)) : Prop :=
  ∀ p ∈ offers, ∀ q ∈ offers, ix.key p.2 ≠ ix.key q.2 → ix.id p.2 ≠ ix.id q.2

/-- No two offers clash. -/
def NoClash (offers : List (Offer × ρ)) : Prop :=
  ∀ p ∈ offers, ∀ q ∈ offers, ¬ p.1.Clash q.1

/-- The id of an offered row is the kind and its joined parts, and among offers with the same
joined parts the natural key is the offer. -/
structure Faithful (ix : TableIndex ρ κ String) (offers : List (Offer × ρ)) : Prop where
  id_eq : ∀ p ∈ offers, ∀ q ∈ offers, ix.id p.2 = ix.id q.2 ↔ p.1.joined = q.1.joined
  key_eq : ∀ p ∈ offers, ∀ q ∈ offers, p.1.joined = q.1.joined →
    (ix.key p.2 = ix.key q.2 ↔ p.1 = q.1)

/-- The id joins its parts after the kind, the last of them the day as a text, and the natural key
has the other parts, the columns left out and the day as a date. -/
theorem Faithful.of_view (castDate : String → Option ℤ) (kind : String)
    (view : κ → List String × List String × ℤ) (hview : Function.Injective view)
    {offers : List (Offer × ρ)}
    (h : ∀ p ∈ offers, ∃ init omitted day date, p.1 = ⟨init ++ [day], omitted⟩ ∧
      castDate day = some date ∧ ix.id p.2 = kind ++ ":" ++ joinColons (init ++ [day]) ∧
      view (ix.key p.2) = (init, omitted, date)) :
    Faithful ix offers where
  id_eq := by
    intro p hp q hq
    obtain ⟨init, omitted, day, date, hoffer, -, hid, -⟩ := h p hp
    obtain ⟨init', omitted', day', date', hoffer', -, hid', -⟩ := h q hq
    rw [hid, hid', hoffer, hoffer', Offer.joined, Offer.joined, String.append_right_inj]
  key_eq := by
    intro p hp q hq hjoined
    obtain ⟨init, omitted, day, date, hoffer, hcast, -, hkey⟩ := h p hp
    obtain ⟨init', omitted', day', date', hoffer', hcast', -, hkey'⟩ := h q hq
    rw [hoffer, hoffer', Offer.joined, Offer.joined] at hjoined
    rw [← hview.eq_iff, hkey, hkey', hoffer, hoffer', Offer.mk.injEq]
    simp only [Prod.mk.injEq]
    constructor
    · rintro ⟨rfl, rfl, -⟩
      exact ⟨by rw [joinColons_last_inj hjoined], rfl⟩
    · rintro ⟨hparts, rfl⟩
      obtain ⟨rfl, hday⟩ := List.append_inj' hparts rfl
      obtain rfl : day = day' := List.singleton_inj.mp hday
      exact ⟨rfl, rfl, Option.some.inj (hcast.symm.trans hcast')⟩

theorem Faithful.idsTellApart_iff {offers : List (Offer × ρ)} (h : Faithful ix offers) :
    IdsTellApart ix offers ↔ NoClash offers := by
  constructor
  · intro hids p hp q hq
    rw [Offer.not_clash_iff]
    intro hjoined
    rw [← h.key_eq p hp q hq hjoined]
    by_contra hne
    exact hids p hp q hq hne ((h.id_eq p hp q hq).mpr hjoined)
  · intro hclash p hp q hq hne hid
    have hjoined := (h.id_eq p hp q hq).mp hid
    exact hne ((h.key_eq p hp q hq hjoined).mpr (Offer.not_clash_iff.1 (hclash p hp q hq) hjoined))

variable [DecidableEq κ] {γ σ : Type} {R : Refresh ix γ} {bindRow : σ → Option ρ}

/-- A stored row has the keys of an offered one. -/
def Registered (offers : List (Offer × ρ)) (t : Table ix) : Prop :=
  ∀ r ∈ t.rows, ∃ p ∈ offers, ix.key p.2 = ix.key r ∧ ix.id p.2 = ix.id r

/-- Where ids tell keys apart, a writer stores all its rows unless a day does not cast. -/
theorem storeRows_registered {offers : List (Offer × ρ)} (hids : IdsTellApart ix offers)
    {rows : List σ} (hrows : ∀ r ∈ rows, ∀ row, bindRow r = some row → ∃ o, (o, row) ∈ offers)
    {t : Table ix} (ht : Registered offers t) :
    (∃ t', storeRows R bindRow rows t = .ok t' ∧ Registered offers t') ∨
      (storeRows R bindRow rows t = .error .decode ∧ ∃ r ∈ rows, bindRow r = none) := by
  induction rows generalizing t with
  | nil => exact .inl ⟨t, rfl, ht⟩
  | cons r rows ih =>
    cases hr : bindRow r with
    | none => exact .inr ⟨by simp only [storeRows, hr], r, List.mem_cons_self, hr⟩
    | some row =>
      obtain ⟨o, ho⟩ := hrows r List.mem_cons_self row hr
      cases hup : t.upsert R row with
      | none =>
        -- A taken id belongs to a stored row, whose key would be the new one.
        exfalso
        obtain ⟨hkey, hid⟩ := Table.upsert_eq_none.1 hup
        obtain ⟨old, hold, holdid⟩ := List.mem_map.mp hid
        obtain ⟨p, hp, hpkey, hpid⟩ := ht old hold
        have hsame : ix.key p.2 = ix.key row := by
          by_contra hne
          exact hids p hp (o, row) ho hne (hpid.trans holdid)
        exact hkey (hsame ▸ hpkey ▸ Table.mem_keys hold)
      | some t₁ =>
        have ht₁ : Registered offers t₁ := by
          refine Table.forall_upsert hup ht (fun _ => ⟨(o, row), ho, rfl, rfl⟩) ?_
          intro old hold _
          obtain ⟨p, hp, hpkey, hpid⟩ := ht old hold
          exact ⟨p, hp, hpkey.trans (R.key_set _ _).symm, hpid.trans (R.id_set _ _).symm⟩
        have hstep : storeRows R bindRow (r :: rows) t = storeRows R bindRow rows t₁ := by
          simp only [storeRows, hr, hup]
        rw [hstep]
        rcases ih (fun r' hr' => hrows r' (List.mem_cons_of_mem _ hr')) ht₁ with
          hok | ⟨herr, r', hr', hnone⟩
        · exact .inl hok
        · exact .inr ⟨herr, r', List.mem_cons_of_mem _ hr', hnone⟩

theorem exists_offer {bindRow : σ → Option ρ} {offer : σ → Offer} {rows : List σ} {r : σ}
    (hr : r ∈ rows) {row : ρ} (hrow : bindRow r = some row) :
    (offer r, row) ∈ CopilotEnv.offersOf bindRow offer rows := by
  refine List.mem_filterMap.mpr ⟨r, hr, ?_⟩
  rw [hrow, Option.map_some]

end OneTable

/-! ## The six tables -/

namespace CopilotEnv

variable (env : CopilotEnv) (calls : List StoreCall)

theorem mem_offersOf {σ ρ : Type} {bindRow : σ → Option ρ} {offer : σ → Offer} {rows : List σ}
    {p : Offer × ρ} (h : p ∈ offersOf bindRow offer rows) :
    ∃ r ∈ rows, bindRow r = some p.2 ∧ p.1 = offer r := by
  obtain ⟨r, hr, hp⟩ := List.mem_filterMap.mp h
  obtain ⟨row, hrow, rfl⟩ := Option.map_eq_some_iff.mp hp
  exact ⟨r, hr, hrow, rfl⟩

theorem rowId_eq (kind tenant scope day : String) :
    rowId kind tenant scope day = kind ++ ":" ++ joinColons ([tenant, scope] ++ [day]) := by
  simp only [rowId, joinColons, List.cons_append, List.nil_append, String.append_assoc]

theorem faithful_org : Faithful OrgDailyRow.index (env.orgOffers calls) := by
  refine Faithful.of_view env.castDate "org"
    (fun k => ([k.tenantId, k.organizationId], [], k.day)) ?_ ?_
  · rintro ⟨t, o, d⟩ ⟨t', o', d'⟩ h
    simp_all
  · intro p hp
    obtain ⟨call, -, hmem⟩ := List.mem_flatMap.mp hp
    split at hmem
    · next tenantId rows =>
      obtain ⟨r, -, hrow, hoffer⟩ := mem_offersOf hmem
      obtain ⟨date, hdate, hp⟩ := Option.map_eq_some_iff.mp hrow
      rw [hoffer, ← hp]
      exact ⟨[tenantId, r.organizationId], [], r.reportDay, date, rfl, hdate, rowId_eq _ _ _ _, rfl⟩
    · cases hmem

theorem faithful_user : Faithful UserDailyRow.index (env.userOffers calls) := by
  refine Faithful.of_view env.castDate "user"
    (fun k => ([k.1.tenantId, k.2], [k.1.organizationId], k.1.day)) ?_ ?_
  · rintro ⟨⟨t, o, d⟩, u⟩ ⟨⟨t', o', d'⟩, u'⟩ h
    simp_all
  · intro p hp
    obtain ⟨call, -, hmem⟩ := List.mem_flatMap.mp hp
    split at hmem
    · next tenantId organizationId rows =>
      obtain ⟨r, -, hrow, hoffer⟩ := mem_offersOf hmem
      obtain ⟨date, hdate, hp⟩ := Option.map_eq_some_iff.mp hrow
      rw [hoffer, ← hp]
      exact ⟨[tenantId, r.providerUserId], [organizationId], r.reportDay, date, rfl, hdate,
        rowId_eq _ _ _ _, rfl⟩
    · cases hmem

theorem faithful_repo : Faithful RepoDailyRow.index (env.repoOffers calls) := by
  refine Faithful.of_view env.castDate "repo"
    (fun k => ([k.1.tenantId, k.2], [k.1.organizationId], k.1.day)) ?_ ?_
  · rintro ⟨⟨t, o, d⟩, u⟩ ⟨⟨t', o', d'⟩, u'⟩ h
    simp_all
  · intro p hp
    obtain ⟨call, -, hmem⟩ := List.mem_flatMap.mp hp
    split at hmem
    · next tenantId organizationId rows =>
      obtain ⟨r, -, hrow, hoffer⟩ := mem_offersOf hmem
      obtain ⟨date, hdate, hp⟩ := Option.map_eq_some_iff.mp hrow
      rw [hoffer, ← hp]
      exact ⟨[tenantId, r.repositoryId], [organizationId], r.reportDay, date, rfl, hdate,
        rowId_eq _ _ _ _, rfl⟩
    · cases hmem

theorem faithful_team : Faithful UserTeamsRow.index (env.teamOffers calls) := by
  refine Faithful.of_view env.castDate "team"
    (fun k => ([k.1.tenantId, k.2.1], [k.1.organizationId, k.2.2], k.1.day)) ?_ ?_
  · rintro ⟨⟨t, o, d⟩, u, m⟩ ⟨⟨t', o', d'⟩, u', m'⟩ h
    simp_all
  · intro p hp
    obtain ⟨call, -, hmem⟩ := List.mem_flatMap.mp hp
    split at hmem
    · next tenantId organizationId rows =>
      obtain ⟨r, -, hrow, hoffer⟩ := mem_offersOf hmem
      obtain ⟨date, hdate, hp⟩ := Option.map_eq_some_iff.mp hrow
      rw [hoffer, ← hp]
      exact ⟨[tenantId, r.userId], [organizationId, r.teamId], r.reportDay, date, rfl, hdate,
        rowId_eq _ _ _ _, rfl⟩
    · cases hmem

theorem faithful_seat : Faithful SeatSnapshotRow.index (env.seatOffers calls) := by
  refine Faithful.of_view env.castDate "seat"
    (fun k => ([k.1.tenantId, k.2], [k.1.organizationId], k.1.day)) ?_ ?_
  · rintro ⟨⟨t, o, d⟩, u⟩ ⟨⟨t', o', d'⟩, u'⟩ h
    simp_all
  · intro p hp
    obtain ⟨call, -, hmem⟩ := List.mem_flatMap.mp hp
    split at hmem
    · next tenantId organizationId rows =>
      obtain ⟨r, -, hrow, hoffer⟩ := mem_offersOf hmem
      obtain ⟨date, hdate, hp⟩ := Option.map_eq_some_iff.mp hrow
      rw [hoffer, ← hp]
      exact ⟨[tenantId, r.providerUserId], [organizationId], r.snapshotDay, date, rfl, hdate,
        rowId_eq _ _ _ _, rfl⟩
    · cases hmem

theorem faithful_manifest : Faithful ManifestRow.index (env.manifestOffers calls) := by
  refine Faithful.of_view env.castDate "manifest"
    (fun k => ([k.tenantId, k.scopeId, k.reportType], [k.provider], k.reportDay)) ?_ ?_
  · rintro ⟨t, v, s, d, r⟩ ⟨t', v', s', d', r'⟩ h
    simp_all
  · intro p hp
    obtain ⟨call, -, hmem⟩ := List.mem_flatMap.mp hp
    split at hmem
    · next m =>
      obtain ⟨m, -, hrow, hoffer⟩ := mem_offersOf hmem
      obtain ⟨date, hdate, hp⟩ := Option.map_eq_some_iff.mp hrow
      rw [hoffer, ← hp]
      refine ⟨[m.tenantId, m.scopeId, m.reportType], [m.provider], m.day, date, rfl, hdate, ?_, rfl⟩
      simp only [ManifestRow.index, joinColons, List.cons_append, List.nil_append,
        String.append_assoc]
      rfl
    · cases hmem

/-! ## Runs -/

/-- In every table, rows with different natural keys get different ids. -/
structure IdsFollowKeys : Prop where
  orgDailys : IdsTellApart OrgDailyRow.index (env.orgOffers calls)
  userDailys : IdsTellApart UserDailyRow.index (env.userOffers calls)
  repoDailys : IdsTellApart RepoDailyRow.index (env.repoOffers calls)
  userTeams : IdsTellApart UserTeamsRow.index (env.teamOffers calls)
  seatSnapshots : IdsTellApart SeatSnapshotRow.index (env.seatOffers calls)
  manifests : IdsTellApart ManifestRow.index (env.manifestOffers calls)

/-- In every table, no two rows that are offered clash. -/
structure NoClashes : Prop where
  orgDailys : NoClash (env.orgOffers calls)
  userDailys : NoClash (env.userOffers calls)
  repoDailys : NoClash (env.repoOffers calls)
  userTeams : NoClash (env.teamOffers calls)
  seatSnapshots : NoClash (env.seatOffers calls)
  manifests : NoClash (env.manifestOffers calls)

theorem idsFollowKeys_iff : env.IdsFollowKeys calls ↔ env.NoClashes calls := by
  have horg := (env.faithful_org calls).idsTellApart_iff
  have huser := (env.faithful_user calls).idsTellApart_iff
  have hrepo := (env.faithful_repo calls).idsTellApart_iff
  have hteam := (env.faithful_team calls).idsTellApart_iff
  have hseat := (env.faithful_seat calls).idsTellApart_iff
  have hmanifest := (env.faithful_manifest calls).idsTellApart_iff
  constructor
  · rintro ⟨h1, h2, h3, h4, h5, h6⟩
    exact ⟨horg.mp h1, huser.mp h2, hrepo.mp h3, hteam.mp h4, hseat.mp h5, hmanifest.mp h6⟩
  · rintro ⟨h1, h2, h3, h4, h5, h6⟩
    exact ⟨horg.mpr h1, huser.mpr h2, hrepo.mpr h3, hteam.mpr h4, hseat.mpr h5, hmanifest.mpr h6⟩

/-- Every day text of a call is a date. -/
def Casts : StoreCall → Prop
  | .upsertOrgDaily _ rows => ∀ r ∈ rows, (env.castDate r.reportDay).isSome
  | .upsertUserDaily _ _ rows => ∀ r ∈ rows, (env.castDate r.reportDay).isSome
  | .upsertRepoDaily _ _ rows => ∀ r ∈ rows, (env.castDate r.reportDay).isSome
  | .upsertUserTeam _ _ rows => ∀ r ∈ rows, (env.castDate r.reportDay).isSome
  | .upsertSeatSnapshot _ _ rows => ∀ r ∈ rows, (env.castDate r.snapshotDay).isSome
  | .upsertManifest m => (env.castDate m.day).isSome

/-- Every stored row has the keys of a row that the calls offer. -/
structure RegisteredDb (db : CopilotDb) : Prop where
  orgDailys : Registered (env.orgOffers calls) db.orgDailys
  userDailys : Registered (env.userOffers calls) db.userDailys
  repoDailys : Registered (env.repoOffers calls) db.repoDailys
  userTeams : Registered (env.teamOffers calls) db.userTeams
  seatSnapshots : Registered (env.seatOffers calls) db.seatSnapshots
  manifests : Registered (env.manifestOffers calls) db.manifests

/-- What a call meets where ids follow keys: no primary-key violation, and success if its days
are dates. -/
structure Stored (db : CopilotDb) (call : StoreCall) : Prop where
  noViolation : (env.perform db call).1 ≠ .error .uniqueViolation
  stored : env.Casts call → (env.perform db call).1 = .ok call.count

variable {env calls}

/-- One call, from what its writer does to its table. -/
theorem registered_step {ρ κ γ σ : Type} [DecidableEq κ] {ix : TableIndex ρ κ String}
    {R : Refresh ix γ} {bindRow : σ → Option ρ} {offers : List (Offer × ρ)}
    (hids : IdsTellApart ix offers) {rows : List σ}
    (hrows : ∀ r ∈ rows, ∀ row, bindRow r = some row → ∃ o, (o, row) ∈ offers) {t : Table ix}
    (ht : Registered offers t) {db : CopilotDb} {call : StoreCall} {put : Table ix → CopilotDb}
    (hstore : env.store db call = (storeRows R bindRow rows t).map put)
    (hput : ∀ t', Registered offers t' → env.RegisteredDb calls (put t'))
    (hdb : env.RegisteredDb calls db)
    (hcast : env.Casts call → ∀ r ∈ rows, (bindRow r).isSome) :
    env.RegisteredDb calls (env.perform db call).2 ∧ env.Stored db call := by
  rcases storeRows_registered (R := R) hids hrows ht with ⟨t', hok, ht'⟩ | ⟨herr, r, hr, hnone⟩
  · rw [hok] at hstore
    have hperform : env.perform db call = (.ok call.count, put t') := by
      simp only [perform, hstore, Except.map]
    refine ⟨by rw [hperform]; exact hput t' ht', ?_, ?_⟩
    · rw [hperform]
      simp
    · rw [hperform]
      exact fun _ => rfl
  · rw [herr] at hstore
    have hperform : env.perform db call = (.error .decode, db) := by
      simp only [perform, hstore, Except.map]
    refine ⟨by rw [hperform]; exact hdb, ?_, ?_⟩
    · rw [hperform]
      simp
    · intro h
      have := hcast h r hr
      rw [hnone] at this
      cases this

/-- Each of the six writers. -/
theorem perform_registered (hids : env.IdsFollowKeys calls) {call : StoreCall}
    (hcall : call ∈ calls) {db : CopilotDb} (hdb : env.RegisteredDb calls db) :
    env.RegisteredDb calls (env.perform db call).2 ∧ env.Stored db call := by
  cases call with
  | upsertOrgDaily tenantId rows =>
    exact registered_step hids.orgDailys
      (fun r hr row hrow => ⟨_, List.mem_flatMap.mpr ⟨_, hcall, exists_offer hr hrow⟩⟩)
      hdb.orgDailys rfl (fun t' ht' => { hdb with orgDailys := ht' }) hdb
      fun h r hr => by simpa [orgDailyRow] using h r hr
  | upsertUserDaily tenantId organizationId rows =>
    exact registered_step hids.userDailys
      (fun r hr row hrow => ⟨_, List.mem_flatMap.mpr ⟨_, hcall, exists_offer hr hrow⟩⟩)
      hdb.userDailys rfl (fun t' ht' => { hdb with userDailys := ht' }) hdb
      fun h r hr => by simpa [userDailyRow] using h r hr
  | upsertRepoDaily tenantId organizationId rows =>
    exact registered_step hids.repoDailys
      (fun r hr row hrow => ⟨_, List.mem_flatMap.mpr ⟨_, hcall, exists_offer hr hrow⟩⟩)
      hdb.repoDailys rfl (fun t' ht' => { hdb with repoDailys := ht' }) hdb
      fun h r hr => by simpa [repoDailyRow] using h r hr
  | upsertUserTeam tenantId organizationId rows =>
    exact registered_step hids.userTeams
      (fun r hr row hrow => ⟨_, List.mem_flatMap.mpr ⟨_, hcall, exists_offer hr hrow⟩⟩)
      hdb.userTeams rfl (fun t' ht' => { hdb with userTeams := ht' }) hdb
      fun h r hr => by simpa [userTeamsRow] using h r hr
  | upsertSeatSnapshot tenantId organizationId rows =>
    exact registered_step hids.seatSnapshots
      (fun r hr row hrow => ⟨_, List.mem_flatMap.mpr ⟨_, hcall, exists_offer hr hrow⟩⟩)
      hdb.seatSnapshots rfl (fun t' ht' => { hdb with seatSnapshots := ht' }) hdb
      fun h r hr => by simpa [seatSnapshotRow] using h r hr
  | upsertManifest m =>
    exact registered_step hids.manifests
      (fun r hr row hrow => ⟨_, List.mem_flatMap.mpr ⟨_, hcall, exists_offer hr hrow⟩⟩)
      hdb.manifests rfl (fun t' ht' => { hdb with manifests := ht' }) hdb
      fun h r hr => by
        obtain rfl := List.mem_singleton.mp hr
        have hday : (env.castDate r.day).isSome := h
        simpa [manifestRow] using hday

theorem stores_registered (hids : env.IdsFollowKeys calls) { pre : List StoreCall}
    (hpre : ∀ call ∈ pre, call ∈ calls) {db : CopilotDb} (hdb : env.RegisteredDb calls db) :
    env.RegisteredDb calls (env.stores db pre) := by
  induction pre generalizing db with
  | nil => exact hdb
  | cons call pre ih =>
    exact ih (fun c hc => hpre c (List.mem_cons_of_mem _ hc))
      (perform_registered hids (hpre call List.mem_cons_self) hdb).1

theorem registered_empty : env.RegisteredDb calls CopilotDb.empty :=
  ⟨fun _ h => (List.not_mem_nil h).elim, fun _ h => (List.not_mem_nil h).elim,
    fun _ h => (List.not_mem_nil h).elim, fun _ h => (List.not_mem_nil h).elim,
    fun _ h => (List.not_mem_nil h).elim, fun _ h => (List.not_mem_nil h).elim⟩

/-- For every sequence of calls of the six writers: rows of one table with different natural keys
have different ids and every call succeeds whose days are dates, without a primary-key
violation, if and only if no two rows offered to one table clash. -/
theorem ids_follow_keys_iff (env : CopilotEnv) (calls : List StoreCall) :
    (env.IdsFollowKeys calls ∧ ∀ before call after, calls = before ++ call :: after →
        env.Stored (env.stores CopilotDb.empty before) call) ↔
      env.NoClashes calls := by
  rw [← idsFollowKeys_iff]
  constructor
  · exact And.left
  · intro hids
    refine ⟨hids, ?_⟩
    rintro before call after rfl
    have hdb : env.RegisteredDb (before ++ call :: after) (env.stores CopilotDb.empty before) :=
      stores_registered hids (fun c hc => List.mem_append_left _ hc) registered_empty
    exact (perform_registered hids (by simp) hdb).2

/-! ## A user in two teams -/

/-- An environment whose dates are the days of August 2026. -/
def sampleEnv : CopilotEnv where
  orgRow := fun _ => none
  userRow := fun _ => none
  repoRow := fun _ => none
  teamRow := fun _ => none
  seatPages := fun _ => none
  creditsToMicroUsd := fun _ => 0
  parseFromRfc3339 := fun _ => none
  castDate := fun text => if text = "2026-08-05" then some 5 else none
  dateText := fun _ => "2026-08-05"
  castDate_dateText := by
    intro text day h
    split at h
    · cases h
      rfl
    · cases h

/-- A report with one user in two teams: the second membership gets the id of the first and is
refused, and the report with it. -/
theorem second_team_violates_primary_key :
    let calls := [StoreCall.upsertUserTeam "acme" "org-1"
      [⟨"1001", "7", "platform", "2026-08-05"⟩, ⟨"1001", "8", "security", "2026-08-05"⟩]]
    ¬ (sampleEnv.IdsFollowKeys calls ∧ ∀ before call after, calls = before ++ call :: after →
        sampleEnv.Stored (sampleEnv.stores CopilotDb.empty before) call) := by
  rintro _ ⟨-, h⟩
  refine (h [] _ [] rfl).noViolation ?_
  decide

end CopilotEnv

end Governance
