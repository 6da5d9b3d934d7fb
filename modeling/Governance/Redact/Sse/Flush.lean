import Governance.Redact.Sse.Undrained

/-!
# The end of a stream

`SseHoldBack::flush` empties one key after the other, in whatever order its hash map
iterates. A key's flush reads that key only, and what it writes to the frames commutes with
the writes of any other key (`writeAll_comm`), so the order does not matter
(`flushKeys_perm`).
-/

namespace Governance

open Utf8Text
open String (utf8Len)

/-- The flush of one key, apart from the queue: its result, the redactor it leaves, and the
frames it writes. -/
def ChoiceRedactor.flushAll (e : Engine) (window : ℕ) : ℕ → ChoiceRedactor →
    Except Error (Option (List String)) × ChoiceRedactor × List (ℕ × Text)
  | 0, r => (.ok none, r, [])
  | fuel + 1, r =>
    match r.flush e window with
    | (.error err, r') => (.error err, r', [])
    | (.ok .nothing, r') => (.ok none, r', [])
    | (.ok (.blocked entities), r') => (.ok (some entities), r', [])
    | (.ok (.release text ids), r') =>
      let rest := flushAll e window fuel r'
      (rest.1, rest.2.1, releaseWrites text ids ++ rest.2.2)

/-- More fuel than the length of the held text does not change how a key's flush ends. -/
theorem ChoiceRedactor.flushAll_fuel (e : Engine) (window : ℕ) {fuel : ℕ} {r : ChoiceRedactor}
    {pieces : List (Text × ℕ)} (hholds : r.Holds pieces) (h : r.pending.length ≤ fuel)
    (extra : ℕ) : r.flushAll e window (fuel + 1 + extra) = r.flushAll e window (fuel + 1) := by
  induction fuel generalizing r pieces with
  | zero =>
    have hnil : r.pending = [] := List.length_eq_zero_iff.mp (by omega)
    rw [Nat.zero_add, Nat.add_comm]
    simp [flushAll, flush, advance, hnil]
  | succ fuel ih =>
    have hfuel : fuel + 1 + 1 + extra = (fuel + 1 + extra) + 1 := by omega
    rw [hfuel]
    conv_lhs => rw [flushAll]
    conv_rhs => rw [flushAll]
    split
    · rfl
    · rfl
    · rfl
    · next text ids r' hflush =>
      have hadv : r.advance e window true = (.ok (.release text ids), r') := hflush
      have hcases := advance_cases hholds e window true
      rw [hadv] at hcases
      obtain ⟨head, tail, _, hrel⟩ : ∃ head tail, ids = head.map Prod.snd ∧
          Releases e 0 pieces head tail text r' := by simpa using hcases
      -- the release takes the text of `head`, which is not empty
      have hshort : r'.pending.length ≤ fuel := by
        have hpos := List.length_pos_iff.mpr hrel.nonempty
        have hlen : r.pending.length = (piecesText head).length + r'.pending.length := by
          rw [hholds.pending, hrel.split, piecesText_append, List.length_append, hrel.holds.pending]
        omega
      rw [ih hrel.holds hshort]

namespace SseHoldBack

theorem setChoice_setChoice (h : SseHoldBack) (key : ContentKey) (r r' : ChoiceRedactor) :
    (h.setChoice key r).setChoice key r' = h.setChoice key r' := by
  simp [setChoice, KeyedMap.insert_insert]

/-- Storing a redactor and writing frames touch different fields. -/
theorem setChoice_writeAll (h : SseHoldBack) (key key' : ContentKey) (r : ChoiceRedactor)
    (ws : List (ℕ × Text)) :
    (h.writeAll key ws).setChoice key' r = (h.setChoice key' r).writeAll key ws := by
  induction ws generalizing h with
  | nil => rfl
  | cons w ws ih => rw [writeAll_cons, ih, writeAll_cons]; rfl

theorem flushChoice_eq (e : Engine) (key : ContentKey) (fuel : ℕ) {h : SseHoldBack}
    {r : ChoiceRedactor} (hr : h.choices.get? key = some r) :
    flushChoice e key fuel h = ((r.flushAll e h.window fuel).1,
      (h.setChoice key (r.flushAll e h.window fuel).2.1).writeAll key
        (r.flushAll e h.window fuel).2.2) := by
  induction fuel generalizing h r with
  | zero =>
    have hself : h.setChoice key r = h := by
      rw [setChoice, KeyedMap.insert_eq_self h.choices hr]
    simp [flushChoice, ChoiceRedactor.flushAll, hself]
  | succ fuel ih =>
    rw [flushChoice, hr]
    simp only [ChoiceRedactor.flushAll]
    rcases r.flush e h.window with ⟨err | (_ | ⟨text, ids⟩ | entities), r'⟩
    · rfl
    · rfl
    · have hstep : ((h.setChoice key r').applyRelease key text ids).choices.get? key = some r' := by
        rw [applyRelease_eq, writeAll_frame]
        simp [setChoice]
      have hwin : ((h.setChoice key r').applyRelease key text ids).window = h.window := by
        rw [applyRelease_eq, writeAll_frame]
        rfl
      rw [writeAll_append]
      exact (ih hstep).trans (by rw [hwin, applyRelease_eq, setChoice_writeAll, setChoice_setChoice])
    · rfl

theorem flushAll_ne_error {e : Engine} (he : e.ErrorFree) (window fuel : ℕ) (r : ChoiceRedactor)
    (err : Error) : (r.flushAll e window fuel).1 ≠ .error err := by
  induction fuel generalizing r with
  | zero => simp [ChoiceRedactor.flushAll]
  | succ fuel ih =>
    rw [ChoiceRedactor.flushAll]
    split
    · next err' r' hf =>
      have herr := ChoiceRedactor.advance_ne_error he window r true err'
      rw [ChoiceRedactor.flush] at hf
      rw [hf] at herr
      exact absurd rfl herr
    · simp
    · simp
    · exact ih _

/-- What the flush of one key answers, the redactor it leaves and what it writes. -/
def keyFlush (e : Engine) (h : SseHoldBack) (key : ContentKey) :
    Except Error (Option (List String)) × ChoiceRedactor × List (ℕ × Text) :=
  ((h.choices.get? key).getD default).flushAll e h.window ((h.pendingOf key).length + 1)

theorem flushChoice_of_mem (e : Engine) {h : SseHoldBack} {key : ContentKey}
    (hkey : key ∈ h.choices.keys) :
    flushChoice e key ((h.pendingOf key).length + 1) h = ((h.keyFlush e key).1,
      (h.setChoice key (h.keyFlush e key).2.1).writeAll key (h.keyFlush e key).2.2) := by
  obtain ⟨r, hr⟩ := Option.isSome_iff_exists.mp ((h.choices.mem_keys key).mp hkey)
  have heq := flushChoice_eq e key ((h.pendingOf key).length + 1) hr
  simpa [keyFlush, hr] using heq

/-- The state once a key has been flushed. -/
def afterKey (e : Engine) (h : SseHoldBack) (key : ContentKey) : SseHoldBack :=
  (h.setChoice key (h.keyFlush e key).2.1).writeAll key (h.keyFlush e key).2.2

theorem afterKey_choices (e : Engine) (h : SseHoldBack) (key : ContentKey) :
    (h.afterKey e key).choices = h.choices.insert key (h.keyFlush e key).2.1 := by
  rw [afterKey, writeAll_frame]
  rfl

theorem afterKey_window (e : Engine) (h : SseHoldBack) (key : ContentKey) :
    (h.afterKey e key).window = h.window := by
  rw [afterKey, writeAll_frame]
  rfl

/-- Flushing one key does not show in the flush of another. -/
theorem keyFlush_afterKey {e : Engine} {h : SseHoldBack} {a b : ContentKey} (hne : b ≠ a) :
    (h.afterKey e a).keyFlush e b = h.keyFlush e b := by
  have hget : (h.afterKey e a).choices.get? b = h.choices.get? b := by
    rw [afterKey_choices, KeyedMap.get?_insert_of_ne _ _ hne]
  rw [keyFlush, keyFlush, pendingOf, pendingOf, hget, afterKey_window]

theorem afterKey_comm {e : Engine} {h : SseHoldBack} {a b : ContentKey} (hne : a ≠ b)
    (ha : a ∈ h.choices.keys) (hb : b ∈ h.choices.keys) :
    (h.afterKey e a).afterKey e b = (h.afterKey e b).afterKey e a := by
  rw [afterKey, keyFlush_afterKey (Ne.symm hne), afterKey.eq_1 e (h.afterKey e b) a,
    keyFlush_afterKey hne, afterKey, afterKey, setChoice_writeAll, setChoice_writeAll,
    writeAll_comm hne]
  congr 2
  simp only [setChoice, KeyedMap.insert_comm h.choices hne ha hb]

theorem flushKeys_cons_ok {e : Engine} {h : SseHoldBack} {key : ContentKey}
    (hkey : key ∈ h.choices.keys) (hnone : (h.keyFlush e key).1 = .ok none)
    (rest : List ContentKey) :
    flushKeys e (key :: rest) h = flushKeys e rest (h.afterKey e key) := by
  have hflush := flushChoice_of_mem e hkey
  rw [hnone] at hflush
  rw [flushKeys, hflush]
  rfl

theorem flushKeys_cons_stop {e : Engine} {h : SseHoldBack} {key : ContentKey}
    (hkey : key ∈ h.choices.keys) (hnot : (h.keyFlush e key).1 ≠ .ok none)
    (rest : List ContentKey) :
    flushKeys e (key :: rest) h = ((h.keyFlush e key).1, h.afterKey e key) := by
  rw [flushKeys, flushChoice_of_mem e hkey]
  split
  · next h' heq => exact absurd (Prod.ext_iff.mp heq).1 hnot
  · rfl

/-- Two flushes end alike: in the same state, or both in a block. -/
def SameEnd (x y : Except Error (Option (List String)) × SseHoldBack) : Prop :=
  (x = y ∧ x.1 = .ok none) ∨ ((∃ es, x.1 = .ok (some es)) ∧ ∃ es, y.1 = .ok (some es))

theorem SameEnd.trans {x y z : Except Error (Option (List String)) × SseHoldBack}
    (hxy : SameEnd x y) (hyz : SameEnd y z) : SameEnd x z := by
  obtain ⟨rfl, hnone⟩ | ⟨hx, es, hy⟩ := hxy
  · exact hyz
  · obtain ⟨rfl, hnone⟩ | ⟨_, hz⟩ := hyz
    · rw [hy] at hnone
      cases hnone
    · exact Or.inr ⟨hx, hz⟩

theorem keyFlush_cases {e : Engine} (he : e.ErrorFree) (h : SseHoldBack) (key : ContentKey) :
    (h.keyFlush e key).1 = .ok none ∨ ∃ es, (h.keyFlush e key).1 = .ok (some es) := by
  cases hres : (h.keyFlush e key).1 with
  | error err => exact absurd hres (flushAll_ne_error he _ _ _ err)
  | ok res =>
    cases res with
    | none => exact Or.inl rfl
    | some es => exact Or.inr ⟨es, rfl⟩

theorem mem_keys_afterKey {e : Engine} {h : SseHoldBack} {a b : ContentKey}
    (hb : b ∈ h.choices.keys) : b ∈ (h.afterKey e a).choices.keys := by
  rw [afterKey_choices, KeyedMap.mem_keys_insert]
  exact Or.inr hb

theorem flushKeys_cases {e : Engine} (he : e.ErrorFree) {keys : List ContentKey}
    {h : SseHoldBack} (hmem : ∀ key ∈ keys, key ∈ h.choices.keys) :
    (flushKeys e keys h).1 = .ok none ∨ ∃ es, (flushKeys e keys h).1 = .ok (some es) := by
  induction keys generalizing h with
  | nil => exact Or.inl rfl
  | cons key rest ih =>
    have hkey : key ∈ h.choices.keys := hmem key (by simp)
    obtain hnone | ⟨es, hblock⟩ := keyFlush_cases he h key
    · rw [flushKeys_cons_ok hkey hnone]
      exact ih fun k hk => mem_keys_afterKey (hmem k (List.mem_cons_of_mem _ hk))
    · rw [flushKeys_cons_stop hkey (by rw [hblock]; simp)]
      exact Or.inr ⟨es, hblock⟩

/-- A flush that does not block leaves every key as its own flush leaves it. -/
theorem flushKeys_get? {e : Engine} {keys : List ContentKey} {h : SseHoldBack}
    (hmem : ∀ key ∈ keys, key ∈ h.choices.keys) (hnodup : keys.Nodup)
    (hnone : (flushKeys e keys h).1 = .ok none) :
    (∀ key ∈ keys, (h.keyFlush e key).1 = .ok none ∧
      (flushKeys e keys h).2.choices.get? key = some (h.keyFlush e key).2.1) ∧
    ∀ key, key ∉ keys → (flushKeys e keys h).2.choices.get? key = h.choices.get? key := by
  induction keys generalizing h with
  | nil => exact ⟨by simp, fun _ _ => rfl⟩
  | cons a rest ih =>
    have ha : a ∈ h.choices.keys := hmem a (by simp)
    obtain ⟨hnot, hrest⟩ := List.nodup_cons.mp hnodup
    by_cases hok : (h.keyFlush e a).1 = .ok none
    · rw [flushKeys_cons_ok ha hok] at hnone ⊢
      obtain ⟨hin, hout⟩ := ih (fun key hkey => mem_keys_afterKey (hmem key (by simp [hkey])))
        hrest hnone
      constructor
      · intro key hkey
        rcases List.mem_cons.mp hkey with rfl | hkey
        · refine ⟨hok, ?_⟩
          rw [hout key hnot, afterKey_choices, KeyedMap.get?_insert_self]
        · have hne : key ≠ a := fun heq => hnot (heq ▸ hkey)
          rw [← keyFlush_afterKey hne]
          exact hin key hkey
      · intro key hkey
        rw [List.mem_cons, not_or] at hkey
        rw [hout key hkey.2, afterKey_choices, KeyedMap.get?_insert_of_ne _ _ hkey.1]
    · rw [flushKeys_cons_stop ha hok] at hnone
      exact absurd hnone hok

/-- A flush of two keys, one of which blocks, blocks. -/
theorem flushKeys_blocked {e : Engine} (he : e.ErrorFree) {h : SseHoldBack} {a b : ContentKey}
    (hne : b ≠ a) (ha : a ∈ h.choices.keys) (hb : b ∈ h.choices.keys)
    (hblock : (h.keyFlush e a).1 ≠ .ok none ∨ (h.keyFlush e b).1 ≠ .ok none)
    (rest : List ContentKey) : ∃ es, (flushKeys e (a :: b :: rest) h).1 = .ok (some es) := by
  obtain hnone | ⟨es, hes⟩ := keyFlush_cases he h a
  · have hb' : ((h.afterKey e a).keyFlush e b).1 ≠ .ok none := by
      rw [keyFlush_afterKey hne]
      exact hblock.resolve_left fun hnot => hnot hnone
    rw [flushKeys_cons_ok ha hnone, flushKeys_cons_stop (mem_keys_afterKey hb) hb']
    exact (keyFlush_cases he _ b).resolve_left hb'
  · rw [flushKeys_cons_stop ha (by rw [hes]; simp)]
    exact ⟨es, hes⟩

/-- The order in which the keys are flushed does not matter. -/
theorem flushKeys_perm {e : Engine} (he : e.ErrorFree) {l₁ l₂ : List ContentKey}
    (hperm : l₁.Perm l₂) {h : SseHoldBack} (hnodup : l₁.Nodup)
    (hmem : ∀ key ∈ l₁, key ∈ h.choices.keys) :
    SameEnd (flushKeys e l₁ h) (flushKeys e l₂ h) := by
  induction hperm generalizing h with
  | nil => exact Or.inl ⟨rfl, rfl⟩
  | cons key hperm ih =>
    have hkey : key ∈ h.choices.keys := hmem key (by simp)
    by_cases hnone : (h.keyFlush e key).1 = .ok none
    · rw [flushKeys_cons_ok hkey hnone, flushKeys_cons_ok hkey hnone]
      exact ih (List.nodup_cons.mp hnodup).2 fun k hk =>
        mem_keys_afterKey (hmem k (List.mem_cons_of_mem _ hk))
    · rw [flushKeys_cons_stop hkey hnone, flushKeys_cons_stop hkey hnone]
      have hblock := (keyFlush_cases he h key).resolve_left hnone
      exact Or.inr ⟨hblock, hblock⟩
  | swap a b rest =>
    have hb : b ∈ h.choices.keys := hmem b (by simp)
    have ha : a ∈ h.choices.keys := hmem a (by simp)
    have hne : b ≠ a := by
      rintro rfl
      simp at hnodup
    by_cases hblock : (h.keyFlush e a).1 ≠ .ok none ∨ (h.keyFlush e b).1 ≠ .ok none
    · exact Or.inr ⟨flushKeys_blocked he (Ne.symm hne) hb ha hblock.symm rest,
        flushKeys_blocked he hne ha hb hblock rest⟩
    · -- neither key blocks, and the two flushes commute
      push Not at hblock
      obtain ⟨hna, hnb⟩ := hblock
      have hna' : ((h.afterKey e b).keyFlush e a).1 = .ok none := by
        rw [keyFlush_afterKey (Ne.symm hne), hna]
      have hnb' : ((h.afterKey e a).keyFlush e b).1 = .ok none := by
        rw [keyFlush_afterKey hne, hnb]
      rw [flushKeys_cons_ok hb hnb, flushKeys_cons_ok (mem_keys_afterKey ha) hna',
        flushKeys_cons_ok ha hna, flushKeys_cons_ok (mem_keys_afterKey hb) hnb',
        afterKey_comm hne hb ha]
      have hrest : ∀ k ∈ rest, k ∈ ((h.afterKey e a).afterKey e b).choices.keys := fun k hk =>
        mem_keys_afterKey (mem_keys_afterKey (hmem k (by simp [hk])))
      obtain hnone | hes := flushKeys_cases he hrest
      · exact Or.inl ⟨rfl, hnone⟩
      · exact Or.inr ⟨hes, hes⟩
  | trans h₁ h₂ ih₁ ih₂ =>
    exact (ih₁ hnodup hmem).trans
      (ih₂ (h₁.nodup hnodup) fun key hkey => hmem key (h₁.mem_iff.mpr hkey))

/-! ## The flush of the undrained and of the drained redactor -/

theorem framed_flushChoice (e : Engine) (key : ContentKey) (fuel : ℕ) (h : SseHoldBack) :
    Framed h (flushChoice e key fuel h).2 := by
  induction fuel generalizing h with
  | zero => exact Framed.refl h
  | succ fuel ih =>
    rw [flushChoice]
    split
    · exact Framed.refl h
    · split
      · exact framed_setChoice h key _
      · exact framed_setChoice h key _
      · exact framed_setChoice h key _
      · next text ids r' _ =>
        rw [applyRelease_eq]
        exact (framed_settle h key (.release text ids) r').trans (ih _)

theorem framed_flushKeys (e : Engine) (keys : List ContentKey) (h : SseHoldBack) :
    Framed h (flushKeys e keys h).2 := by
  induction keys generalizing h with
  | nil => exact Framed.refl h
  | cons key rest ih =>
    have hframed := framed_flushChoice e key ((h.pendingOf key).length + 1) h
    rw [flushKeys]
    split
    · next h' heq =>
      rw [heq] at hframed
      exact hframed.trans (ih h')
    · exact hframed

theorem Undrained.settle {e : Engine} {window : ℕ} {U : SseHoldBack} (hU : U.Undrained)
    {key : ContentKey} {pieces : List (Text × ℕ)} {res : ChoicePush} {r : ChoiceRedactor}
    (hcount : ∀ fid, (pieces.map Prod.snd).count fid =
      (U.choices.get? key).elim 0 (ChoiceRedactor.held fid))
    (hadv : ChoiceRedactor.Advances e window pieces res r) :
    (U.settle key res r).Undrained ∧ Extends U (U.settle key res r) := by
  have hframed := framed_settle U key res r
  have hacc : U.Accounted 0 (0 + 0) := hU.accounted
  have hpieces : ∀ fid, (pieces.map Prod.snd).count fid =
      (U.choices.get? key).elim 0 (ChoiceRedactor.held fid) + if fid = 0 then 0 else 0 := by
    intro fid
    rw [hcount fid, ite_self, Nat.add_zero]
  refine ⟨⟨hacc.settle hpieces hadv, ?_, ?_⟩, ?_, fun fid _ hready => ?_⟩
  · rw [hframed.order, hframed.frameSeq, hU.order]
  · intro fid hfid
    rw [hframed.frameSeq] at hfid
    exact hframed.awaiting_none fid (hU.fresh fid hfid)
  · rw [hframed.order]
  · exact kept_settle (fun j hj => hacc.notMem_writes hpieces hadv hj) fid hready

theorem Undrained.flushChoice {e : Engine} (he : e.ErrorFree) {U : SseHoldBack} (hU : U.Undrained)
    (key : ContentKey) (fuel : ℕ) (hnone : (flushChoice e key fuel U).1 = .ok none) :
    (flushChoice e key fuel U).2.Undrained ∧ Extends U (flushChoice e key fuel U).2 := by
  induction fuel generalizing U with
  | zero => exact ⟨hU, Extends.refl U⟩
  | succ fuel ih =>
    cases hkey : U.choices.get? key with
    | none =>
      simp only [SseHoldBack.flushChoice, hkey]
      exact ⟨hU, Extends.refl U⟩
    | some r =>
      obtain ⟨pieces, hholds, hcount⟩ := hU.accounted.exists_pieces key
      rw [hkey, Option.getD_some] at hholds
      simp only [SseHoldBack.flushChoice, hkey] at hnone ⊢
      obtain ⟨es, hblocked⟩ | ⟨res, r', hflush, hadv⟩ :=
        ChoiceRedactor.advance_ok hholds he U.window true
      · rw [← ChoiceRedactor.flush] at hblocked
        split at hnone <;> simp_all
      · rw [← ChoiceRedactor.flush] at hflush
        rw [hflush] at hnone ⊢
        obtain ⟨hU', hext⟩ := hU.settle hcount hadv
        cases hadv with
        | hold h => exact ⟨hU', hext⟩
        | release h =>
          simp only [applyRelease_eq] at hnone ⊢
          obtain ⟨hU'', hext'⟩ := ih hU' hnone
          exact ⟨hU'', hext.trans hext'⟩

theorem Undrained.flushKeys {e : Engine} (he : e.ErrorFree) {U : SseHoldBack} (hU : U.Undrained)
    (keys : List ContentKey) (hnone : (flushKeys e keys U).1 = .ok none) :
    (flushKeys e keys U).2.Undrained ∧ Extends U (flushKeys e keys U).2 := by
  induction keys generalizing U with
  | nil => exact ⟨hU, Extends.refl U⟩
  | cons key rest ih =>
    rw [SseHoldBack.flushKeys] at hnone ⊢
    split
    · next U' heq =>
      rw [heq] at hnone
      have hone : (SseHoldBack.flushChoice e key ((U.pendingOf key).length + 1) U).1 = .ok none := by
        rw [heq]
      obtain ⟨hU', hext⟩ := hU.flushChoice he key _ hone
      rw [heq] at hU' hext
      obtain ⟨hU'', hext'⟩ := ih hU' hnone
      exact ⟨hU'', hext.trans hext'⟩
    · next hnot =>
      split at hnone
      · next U' heq => exact absurd heq (hnot U')
      · have heq : SseHoldBack.flushChoice e key ((U.pendingOf key).length + 1) U =
            (.ok none, (SseHoldBack.flushChoice e key ((U.pendingOf key).length + 1) U).2) :=
          Prod.ext hnone rfl
        exact absurd heq (hnot _)

theorem Drained.flushChoice {popped : List ℕ} {D U : SseHoldBack} (hd : Drained popped D U)
    (e : Engine) (key : ContentKey) (fuel : ℕ) :
    (flushChoice e key fuel D).1 = (flushChoice e key fuel U).1 ∧
      Drained popped (flushChoice e key fuel D).2 (flushChoice e key fuel U).2 := by
  induction fuel generalizing D U with
  | zero => exact ⟨rfl, hd⟩
  | succ fuel ih =>
    rw [SseHoldBack.flushChoice, SseHoldBack.flushChoice, hd.choices, hd.window]
    split
    · exact ⟨rfl, hd⟩
    · split
      · next r' _ => exact ⟨rfl, hd.settle key .nothing r'⟩
      · next r' _ => exact ⟨rfl, hd.settle key .nothing r'⟩
      · next r' _ => exact ⟨rfl, hd.settle key .nothing r'⟩
      · next text ids r' _ =>
        rw [applyRelease_eq, applyRelease_eq]
        exact ih (hd.settle key (.release text ids) r')

theorem Drained.flushKeys {popped : List ℕ} {D U : SseHoldBack} (hd : Drained popped D U)
    (e : Engine) (keys : List ContentKey) :
    (flushKeys e keys D).1 = (flushKeys e keys U).1 ∧
      Drained popped (flushKeys e keys D).2 (flushKeys e keys U).2 := by
  induction keys generalizing D U with
  | nil => exact ⟨rfl, hd⟩
  | cons key rest ih =>
    have hpending : D.pendingOf key = U.pendingOf key := by rw [pendingOf, pendingOf, hd.choices]
    obtain ⟨hsame, hd'⟩ := hd.flushChoice e key ((U.pendingOf key).length + 1)
    rw [SseHoldBack.flushKeys, SseHoldBack.flushKeys, hpending]
    generalize SseHoldBack.flushChoice e key ((U.pendingOf key).length + 1) D = x at *
    generalize SseHoldBack.flushChoice e key ((U.pendingOf key).length + 1) U = y at *
    obtain ⟨res, D'⟩ := x
    obtain ⟨res', U'⟩ := y
    obtain rfl : res = res' := hsame
    cases res with
    | error err => exact ⟨rfl, hd'⟩
    | ok o =>
      cases o with
      | none => exact ih hd'
      | some es => exact ⟨rfl, hd'⟩

end SseHoldBack

end Governance
