import Governance.Redact.HoldBack

/-!
# Bounded local detectors

What the hold-back relies on: an analyzer whose spans are short, disjoint and whole characters,
are found in every prefix that holds them, and are those of the two halves wherever no span
straddles the cut. Redaction replaces each span by itself. Then a text can be redacted in two
halves, and a cut that is clear in what has been read so far is clear in the whole text, except
that `Engine::detect` leaves out the spans which the profile allows.
-/

namespace Governance

open Utf8Text
open String (utf8Len)

namespace Detection

/-- The cut is strictly inside the span. -/
def straddles (d : Detection) (cut : ℕ) : Prop := d.start < cut ∧ cut < d.stop

instance (d : Detection) (cut : ℕ) : Decidable (d.straddles cut) :=
  inferInstanceAs (Decidable (_ ∧ _))

/-- The span in a text that is preceded by `n` more bytes. -/
def shift (n : ℕ) (d : Detection) : Detection := ⟨d.start + n, d.stop + n, d.entity⟩

theorem shift_injective (n : ℕ) : Function.Injective (shift n) := by
  rintro ⟨start, stop, entity⟩ ⟨start', stop', entity'⟩ heq
  simp only [shift, Detection.mk.injEq, Nat.add_right_cancel_iff] at heq
  obtain ⟨rfl, rfl, rfl⟩ := heq
  rfl

end Detection

/-! ## Replacing spans -/

/-- What is to be done at a byte offset. -/
inductive Mark where
  | keep
  | inside
  | span (length : ℕ) (entity : String)

/-- The mark that some disjoint spans leave at an offset. -/
def markAt (ds : List Detection) (offset : ℕ) : Mark :=
  match ds.find? fun d => d.start = offset with
  | some d => .span (d.stop - d.start) d.entity
  | none => if ds.any fun d => d.start < offset && offset < d.stop then .inside else .keep

/-- A text whose first byte is at `offset`, with every marked span replaced by itself. -/
def replaceMarked (replacement : String → Text → Text) (mark : ℕ → Mark) : Text → ℕ → Text
  | [], _ => []
  | c :: cs, offset =>
    (match mark offset with
      | .keep => [c]
      | .inside => []
      | .span length entity => replacement entity (takeBytes (c :: cs) length)) ++
    replaceMarked replacement mark cs (offset + c.utf8Size)

/-- A text with each of some disjoint spans replaced. -/
def replaceSpans (replacement : String → Text → Text) (text : Text) (ds : List Detection) : Text :=
  replaceMarked replacement (markAt ds) text 0

theorem takeBytes_append_of_le {p : Text} (s : Text) {n : ℕ} (h : n ≤ utf8Len p) :
    takeBytes (p ++ s) n = takeBytes p n := by
  induction p generalizing n with
  | nil =>
    obtain rfl : n = 0 := Nat.le_zero.mp h
    simp
  | cons c cs ih =>
    rw [String.utf8Len_cons] at h
    simp only [List.cons_append, takeBytes]
    split
    · rw [ih (by omega)]
    · rfl

/-- Two halves are replaced one after the other when no marked span reaches over the cut. -/
theorem replaceMarked_append {replacement : String → Text → Text} {mark : ℕ → Mark} {p : Text}
    (s : Text) {offset : ℕ} (h : ∀ o length entity, mark o = .span length entity →
      offset ≤ o → o < offset + utf8Len p → o + length ≤ offset + utf8Len p) :
    replaceMarked replacement mark (p ++ s) offset =
      replaceMarked replacement mark p offset ++
        replaceMarked replacement mark s (offset + utf8Len p) := by
  induction p generalizing offset with
  | nil => simp [replaceMarked]
  | cons c cs ih =>
    rw [String.utf8Len_cons] at h ⊢
    have hpos := Char.utf8Size_pos c
    have hrest : replaceMarked replacement mark (cs ++ s) (offset + c.utf8Size) =
        replaceMarked replacement mark cs (offset + c.utf8Size) ++
          replaceMarked replacement mark s (offset + c.utf8Size + utf8Len cs) := by
      apply ih
      intro o length entity hmark hlow hhigh
      have := h o length entity hmark (by omega) (by omega)
      omega
    rw [List.cons_append, replaceMarked, replaceMarked, hrest, List.append_assoc]
    rw [show offset + c.utf8Size + utf8Len cs = offset + (utf8Len cs + c.utf8Size) by omega]
    congr 1
    cases hmark : mark offset with
    | keep => rfl
    | inside => rfl
    | span length entity =>
      have hlen := h offset length entity hmark le_rfl (by omega)
      have htake := takeBytes_append_of_le (p := c :: cs) s (n := length)
        (by rw [String.utf8Len_cons]; omega)
      rw [List.cons_append] at htake
      simp only [htake]

theorem replaceMarked_congr {r r' : String → Text → Text} {mark mark' : ℕ → Mark} {t : Text}
    {offset offset' : ℕ} (hmark : ∀ x < utf8Len t, mark (offset + x) = mark' (offset' + x))
    (hr : ∀ o length entity, mark o = .span length entity → r entity = r' entity) :
    replaceMarked r mark t offset = replaceMarked r' mark' t offset' := by
  induction t generalizing offset offset' with
  | nil => rfl
  | cons c cs ih =>
    rw [String.utf8Len_cons] at hmark
    have hpos := Char.utf8Size_pos c
    have hrest : replaceMarked r mark cs (offset + c.utf8Size) =
        replaceMarked r' mark' cs (offset' + c.utf8Size) := by
      apply ih
      intro x hx
      have := hmark (c.utf8Size + x) (by omega)
      rw [Nat.add_assoc, Nat.add_assoc, this]
    have hhead := hmark 0 (by omega)
    rw [Nat.add_zero, Nat.add_zero] at hhead
    rw [replaceMarked, replaceMarked, hrest, ← hhead]
    congr 1
    cases hm : mark offset with
    | keep => rfl
    | inside => rfl
    | span length entity => simp only [hr offset length entity hm]

theorem mem_of_markAt {ds : List Detection} {offset length : ℕ} {entity : String}
    (h : markAt ds offset = .span length entity) :
    ∃ d ∈ ds, d.start = offset ∧ d.stop - d.start = length ∧ d.entity = entity := by
  unfold markAt at h
  split at h
  · next d hfind =>
    obtain ⟨rfl, rfl⟩ := Mark.span.inj h
    exact ⟨d, List.mem_of_find?_eq_some hfind, by simpa using List.find?_some hfind, rfl, rfl⟩
  · split at h <;> cases h

/-- The marks of some spans and of the same spans further right. -/
theorem markAt_shift {ds ds' : List Detection} {offset n : ℕ}
    (huniq : ∀ a ∈ ds', ∀ b ∈ ds', a.start = b.start → a = b)
    (hfwd : ∀ d ∈ ds, d.shift n ∈ ds')
    (hbwd : ∀ d' ∈ ds', d'.start ≤ offset + n → offset + n < d'.stop → ∃ d ∈ ds, d.shift n = d')
    (hpos : ∀ d' ∈ ds', d'.start < d'.stop) : markAt ds offset = markAt ds' (offset + n) := by
  unfold markAt
  cases hfind : ds.find? fun d => d.start = offset with
  | some d =>
    have hd := List.mem_of_find?_eq_some hfind
    have hstart : d.start = offset := by simpa using List.find?_some hfind
    have hsome : ds'.find? (fun d => d.start = offset + n) = some (d.shift n) := by
      cases hfind' : ds'.find? fun d => d.start = offset + n with
      | none =>
        have hnone := List.find?_eq_none.mp hfind' _ (hfwd d hd)
        simp [Detection.shift, hstart] at hnone
      | some d' =>
        have hstart' : d'.start = offset + n := by simpa using List.find?_some hfind'
        refine congrArg some (huniq _ (List.mem_of_find?_eq_some hfind') _ (hfwd d hd) ?_)
        rw [hstart', ← hstart]
        rfl
    rw [hsome]
    simp only [Detection.shift, Nat.add_sub_add_right]
  | none =>
    have hnone : ds'.find? (fun d => d.start = offset + n) = none := by
      refine List.find?_eq_none.mpr fun d' hd' heq => ?_
      have hstart' : d'.start = offset + n := by simpa using heq
      have hlt := hpos d' hd'
      obtain ⟨d, hd, rfl⟩ := hbwd d' hd' (by omega) (by omega)
      refine List.find?_eq_none.mp hfind d hd ?_
      simpa [Detection.shift] using hstart'
    rw [hnone]
    have hany : (ds.any fun d => d.start < offset && offset < d.stop) =
        ds'.any fun d => d.start < offset + n && offset + n < d.stop := by
      rw [Bool.eq_iff_iff]
      simp only [List.any_eq_true, Bool.and_eq_true, decide_eq_true_eq]
      constructor
      · rintro ⟨d, hd, hlow, hhigh⟩
        exact ⟨d.shift n, hfwd d hd, by simp only [Detection.shift]; omega⟩
      · rintro ⟨d', hd', hlow, hhigh⟩
        obtain ⟨d, hd, rfl⟩ := hbwd d' hd' (by omega) hhigh
        simp only [Detection.shift] at hlow hhigh
        exact ⟨d, hd, by omega, by omega⟩
    rw [hany]

/-! ## The assumptions -/

/-- The operator that the anonymizer uses for an entity type. -/
def AnonymizeConfig.operatorFor (config : AnonymizeConfig) (entity : String) : Operator :=
  (config.perEntity.lookup entity).getD config.default

namespace Engine

variable (e : Engine)

/-- The spans that the analyzer reports for a text, also those that the profile allows. -/
def found (text : Text) : List Detection :=
  match e.analyze text with
  | .ok entities => entities
  | .error _ => []

/-- No reported span straddles the cut. -/
def Clear (text : Text) (cut : ℕ) : Prop := ∀ d ∈ e.found text, ¬ d.straddles cut

/-- The analyzer is a function whose spans are non-empty ranges of whole characters, at most
`window` bytes long and pairwise disjoint; a span that lies in a prefix is reported for the
prefix; and a cut that no span straddles divides the spans. -/
structure BoundedLocal (window : ℕ) : Prop where
  total : ∀ text, ∃ entities, e.analyze text = .ok entities
  inRange : ∀ text, ∀ d ∈ e.found text, d.start < d.stop ∧ d.stop ≤ utf8Len text
  onBoundaries : ∀ text, ∀ d ∈ e.found text,
    isCharBoundary text d.start = true ∧ isCharBoundary text d.stop = true
  short : ∀ text, ∀ d ∈ e.found text, d.stop ≤ d.start + window
  disjoint : ∀ text, (e.found text).Pairwise fun a b => a.stop ≤ b.start ∨ b.stop ≤ a.start
  ofPrefix : ∀ p s, ∀ d ∈ e.found (p ++ s), d.stop ≤ utf8Len p → d ∈ e.found p
  split : ∀ p s, e.Clear (p ++ s) (utf8Len p) →
    (∀ d, d ∈ e.found p ↔ d ∈ e.found (p ++ s) ∧ d.stop ≤ utf8Len p) ∧
    ∀ d, d ∈ e.found s ↔ d.shift (utf8Len p) ∈ e.found (p ++ s)

/-- The anonymizer replaces each of the spans it is given, by what the operator of its type makes
of its text, and leaves the rest alone. -/
def ReplacesSpans (apply : Operator → Text → Text) : Prop :=
  ∀ text ds config, ∃ count, e.anonymize text ds config =
    .ok (replaceSpans (fun entity => apply (config.operatorFor entity)) text ds, count)

/-- The action that the profile takes on a span. -/
def actionOn (d : Detection) : Action := e.profile.actionFor d.entity

/-- The spans that are rewritten. -/
def transformable (text : Text) : List Detection :=
  (e.found text).filter fun d => e.actionOn d ≠ .allow

/-- What becomes of a span of an entity type that is rewritten. -/
def replacement (apply : Operator → Text → Text) (entity : String) : Text → Text :=
  apply (((e.profile.actionFor entity).operator e.salt).getD
    ((e.profile.defaultAction.operator e.salt).getD .redact))

/-- A text with all its spans replaced that the profile does not allow. -/
def rewrite (apply : Operator → Text → Text) (text : Text) : Text :=
  replaceSpans (e.replacement apply) text (e.transformable text)

/-- No span of the text is blocked. -/
def NoBlock (text : Text) : Prop := ∀ d ∈ e.found text, e.actionOn d ≠ .block

variable {e} {window : ℕ} {apply : Operator → Text → Text}

/-! ## Detecting and scanning, in terms of the reported spans -/

theorem BoundedLocal.analyze (h : e.BoundedLocal window) (text : Text) :
    e.analyze text = .ok (e.found text) := by
  obtain ⟨entities, hok⟩ := h.total text
  simp only [found, hok]

theorem BoundedLocal.found_nil (h : e.BoundedLocal window) : e.found [] = [] := by
  refine List.eq_nil_iff_forall_not_mem.mpr fun d hd => ?_
  obtain ⟨hlt, hle⟩ := h.inRange [] d hd
  have hzero : utf8Len [] = 0 := rfl
  omega

theorem BoundedLocal.apart (h : e.BoundedLocal window) {text : Text} {a b : Detection}
    (ha : a ∈ e.found text) (hb : b ∈ e.found text) (hne : a ≠ b) :
    a.stop ≤ b.start ∨ b.stop ≤ a.start := by
  have hsymm : Std.Symm fun a b : Detection => a.stop ≤ b.start ∨ b.stop ≤ a.start :=
    ⟨fun _ _ => Or.symm⟩
  exact (h.disjoint text).forall ha hb hne

theorem BoundedLocal.eq_of_start (h : e.BoundedLocal window) {text : Text} {a b : Detection}
    (ha : a ∈ e.found text) (hb : b ∈ e.found text) (heq : a.start = b.start) : a = b := by
  by_contra hne
  have hapart := h.apart ha hb hne
  have hlta := (h.inRange text a ha).1
  have hltb := (h.inRange text b hb).1
  omega

/-- `Engine::detect` reports the spans that the profile does not allow. -/
theorem BoundedLocal.detect (h : e.BoundedLocal window) (text : Text) :
    ∃ spans, e.detect text = .ok spans ∧
      (∀ d ∈ e.found text, e.actionOn d ≠ .allow → e.toSpan d ∈ spans) ∧
      ∀ s ∈ spans, ∃ d ∈ e.found text, e.toSpan d = s := by
  unfold Engine.detect
  split
  · next hnil =>
    subst hnil
    refine ⟨[], rfl, ?_, fun s hs => (List.not_mem_nil hs).elim⟩
    intro d hd
    rw [h.found_nil] at hd
    exact (List.not_mem_nil hd).elim
  · rw [h.analyze text]
    refine ⟨_, rfl, ?_, ?_⟩
    · intro d hd haction
      rw [List.mem_insertionSort, List.mem_filter]
      exact ⟨List.mem_map_of_mem hd, decide_eq_true haction⟩
    · intro s hs
      rw [List.mem_insertionSort, List.mem_filter] at hs
      exact List.mem_map.mp hs.1

theorem sortDedup_eq_nil_iff {names : List String} : sortDedup names = [] ↔ names = [] := by
  rw [sortDedup, List.destutter_eq_nil]
  constructor
  · intro h
    have hperm := List.perm_insertionSort (· ≤ ·) names
    rw [h] at hperm
    exact hperm.symm.eq_nil
  · rintro rfl
    rfl

theorem blockingEntities_eq_nil_iff {spans : List Span} :
    blockingEntities spans = [] ↔ ∀ s ∈ spans, s.action ≠ .block := by
  rw [blockingEntities, sortDedup_eq_nil_iff, List.map_eq_nil_iff, List.filter_eq_nil_iff]
  simp

theorem replaceSpans_nil (r : String → Text → Text) (text : Text) : replaceSpans r text [] = text := by
  have hall (offset : ℕ) : replaceMarked r (markAt []) text offset = text := by
    induction text generalizing offset with
    | nil => rfl
    | cons c cs ih => simp [replaceMarked, markAt, ih]
  exact hall 0

/-- The operator of an entity type is the one of the profile, once the type occurs. -/
theorem lookup_perEntity (ds : List Detection) (config : List (String × Operator))
    (entity : String) : (e.perEntity ds config).lookup entity =
      (config.lookup entity).or (if entity ∈ ds.map Detection.entity then
        (e.profile.actionFor entity).operator e.salt else none) := by
  induction ds generalizing config with
  | nil => simp [perEntity]
  | cons d ds ih =>
    rw [perEntity]
    by_cases heq : entity = d.entity
    · subst heq
      cases hlookup : config.lookup d.entity with
      | some op => simp [hlookup, ih]
      | none =>
        cases hop : (e.profile.actionFor d.entity).operator e.salt with
        | none => simp [ih, hlookup, hop]
        | some op => simp [ih, hlookup, List.lookup_append]
    · have hmem : entity ∈ (d :: ds).map Detection.entity ↔ entity ∈ ds.map Detection.entity := by
        simp [heq]
      split
      · simp only [ih, hmem]
      · split
        · next op hop =>
          have hlast : List.lookup entity [(d.entity, op)] = none := by
            rw [List.lookup_cons, beq_false_of_ne heq]
            rfl
          simp only [ih, List.lookup_append, hlast, Option.or_none, hmem]
        · simp only [ih, hmem]

theorem operatorFor_anonymizeConfig {ds : List Detection} {entity : String}
    (h : entity ∈ ds.map Detection.entity) : (e.anonymizeConfig ds).operatorFor entity =
      ((e.profile.actionFor entity).operator e.salt).getD
        ((e.profile.defaultAction.operator e.salt).getD .redact) := by
  simp only [AnonymizeConfig.operatorFor, anonymizeConfig, lookup_perEntity, List.lookup_nil,
    Option.none_or, if_pos h]

/-- A text with spans, none of them blocked, is clean or goes to the anonymizer. -/
theorem BoundedLocal.scan_of_noBlock (h : e.BoundedLocal window) {text : Text} (hnil : text ≠ [])
    (hfound : e.found text ≠ []) (hblock : e.NoBlock text) :
    e.scan text = if e.transformable text = [] then .ok .clean
      else match e.anonymize text (e.transformable text)
          (e.anonymizeConfig (e.transformable text)) with
        | .error message => .error (.anonymize message)
        | .ok (newText, count) => .ok (.redacted newText count) := by
  have hfilter : ((e.found text).filter fun d => e.profile.actionFor d.entity = .block) = [] := by
    refine List.filter_eq_nil_iff.mpr fun d hd => ?_
    simpa [actionOn] using hblock d hd
  unfold Engine.scan
  rw [if_neg hnil, h.analyze text]
  simp only [hfound, if_false, hfilter, List.map_nil, ne_eq, not_true_eq_false]
  rfl

/-- A text whose spans are not blocked is scanned to its rewriting. -/
theorem BoundedLocal.scanText (h : e.BoundedLocal window) (hreplaces : e.ReplacesSpans apply)
    {text : Text} (hblock : e.NoBlock text) : e.scanText text = some (e.rewrite apply text) := by
  have hclean : e.transformable text = [] → e.rewrite apply text = text := by
    intro hnil
    rw [rewrite, hnil, replaceSpans_nil]
  by_cases hnil : text = []
  · rw [hclean (by rw [transformable, hnil, h.found_nil]; rfl), Engine.scanText, Engine.scan,
      if_pos hnil]
  by_cases hfound : e.found text = []
  · rw [hclean (by rw [transformable, hfound]; rfl), Engine.scanText, Engine.scan, if_neg hnil,
      h.analyze text]
    simp only [hfound, if_true]
  have hscan := h.scan_of_noBlock hnil hfound hblock
  by_cases htrans : e.transformable text = []
  · rw [if_pos htrans] at hscan
    rw [hclean htrans, Engine.scanText, hscan]
  obtain ⟨count, hanonymize⟩ := hreplaces text (e.transformable text)
    (e.anonymizeConfig (e.transformable text))
  have hsame : replaceSpans
      (fun entity => apply ((e.anonymizeConfig (e.transformable text)).operatorFor entity)) text
      (e.transformable text) = e.rewrite apply text := by
    refine replaceMarked_congr (fun x _ => rfl) ?_
    intro o length entity hmark
    obtain ⟨d, hd, -, -, rfl⟩ := mem_of_markAt hmark
    rw [operatorFor_anonymizeConfig (List.mem_map_of_mem hd)]
    rfl
  rw [if_neg htrans, hanonymize, hsame] at hscan
  rw [Engine.scanText, hscan]

/-- A text with a blocked span is blocked. -/
theorem BoundedLocal.scan_blocked (h : e.BoundedLocal window) {text : Text}
    (hblock : ¬ e.NoBlock text) : ∃ entities, e.scan text = .ok (.blocked entities) := by
  simp only [NoBlock, not_forall, not_not] at hblock
  obtain ⟨d, hd, haction⟩ := hblock
  have hnil : text ≠ [] := by
    rintro rfl
    rw [h.found_nil] at hd
    exact List.not_mem_nil hd
  have hfound : e.found text ≠ [] := List.ne_nil_of_mem hd
  have hblocking : ((e.found text).filter fun d => e.profile.actionFor d.entity = .block).map
      Detection.entity ≠ [] := by
    exact List.ne_nil_of_mem (List.mem_map_of_mem
      (List.mem_filter.mpr ⟨hd, decide_eq_true haction⟩))
  refine ⟨sortDedup (((e.found text).filter fun d => e.profile.actionFor d.entity = .block).map
    Detection.entity), ?_⟩
  unfold Engine.scan
  rw [if_neg hnil, h.analyze text]
  simp only [hfound, if_false, hblocking, ne_eq, not_false_eq_true, if_true]

theorem BoundedLocal.scan_ne_blocked (h : e.BoundedLocal window) (hreplaces : e.ReplacesSpans apply)
    {text : Text} (hblock : e.NoBlock text) (entities : List String) :
    e.scan text ≠ .ok (.blocked entities) := by
  intro hscan
  have htext := h.scanText hreplaces hblock
  simp only [Engine.scanText, hscan] at htext
  cases htext

/-! ## A clear cut -/

theorem mem_transformable {text : Text} {d : Detection} :
    d ∈ e.transformable text ↔ d ∈ e.found text ∧ e.actionOn d ≠ .allow := by
  rw [transformable, List.mem_filter, decide_eq_true_eq]

/-- What is marked in a text is marked in a longer one, further right by what precedes it. -/
theorem BoundedLocal.markAt_transformable (h : e.BoundedLocal window) {part whole : Text}
    {offset n : ℕ} (hpart : ∀ d, d ∈ e.found part → d.shift n ∈ e.found whole)
    (hwhole : ∀ d ∈ e.found whole, d.start ≤ offset + n → offset + n < d.stop →
      ∃ d' ∈ e.found part, d'.shift n = d) :
    markAt (e.transformable part) offset = markAt (e.transformable whole) (offset + n) := by
  apply markAt_shift
  · intro a ha b hb heq
    exact h.eq_of_start (mem_transformable.1 ha).1 (mem_transformable.1 hb).1 heq
  · intro d hd
    obtain ⟨hfound, haction⟩ := mem_transformable.1 hd
    exact mem_transformable.2 ⟨hpart d hfound, haction⟩
  · intro d hd hlow hhigh
    obtain ⟨hfound, haction⟩ := mem_transformable.1 hd
    obtain ⟨d', hd', rfl⟩ := hwhole d hfound hlow hhigh
    exact ⟨d', mem_transformable.2 ⟨hd', haction⟩, rfl⟩
  · intro d hd
    exact (h.inRange whole d (mem_transformable.1 hd).1).1

/-- A span behind a clear cut is a span of what follows. -/
theorem BoundedLocal.exists_after (h : e.BoundedLocal window) {p s : Text}
    (hclear : e.Clear (p ++ s) (utf8Len p)) {d : Detection} (hd : d ∈ e.found (p ++ s))
    (hstop : utf8Len p < d.stop) : ∃ d' ∈ e.found s, d'.shift (utf8Len p) = d := by
  have hstart : utf8Len p ≤ d.start := by
    by_contra hlt
    exact hclear d hd ⟨by omega, hstop⟩
  have hback : (⟨d.start - utf8Len p, d.stop - utf8Len p, d.entity⟩ : Detection).shift
      (utf8Len p) = d := by
    simp only [Detection.shift]
    rw [Nat.sub_add_cancel hstart, Nat.sub_add_cancel (by omega)]
  refine ⟨_, ((h.split p s hclear).2 _).mpr ?_, hback⟩
  rw [hback]
  exact hd

/-- At a clear cut a text is rewritten in two halves. -/
theorem BoundedLocal.rewrite_append (h : e.BoundedLocal window) {p s : Text}
    (hclear : e.Clear (p ++ s) (utf8Len p)) :
    e.rewrite apply (p ++ s) = e.rewrite apply p ++ e.rewrite apply s := by
  obtain ⟨hbefore, hafter⟩ := h.split p s hclear
  have hstop : ∀ d ∈ e.found (p ++ s), d.start < utf8Len p → d.stop ≤ utf8Len p := by
    intro d hd hstart
    by_contra hgt
    exact hclear d hd ⟨hstart, by omega⟩
  unfold rewrite replaceSpans
  rw [replaceMarked_append]
  · congr 1
    · refine replaceMarked_congr ?_ fun _ _ _ _ => rfl
      intro x hx
      rw [Nat.zero_add]
      refine (h.markAt_transformable (n := 0) ?_ ?_).symm
      · intro d hd
        exact ((hbefore d).mp hd).1
      · intro d hd hlow _
        exact ⟨d, (hbefore d).mpr ⟨hd, hstop d hd (by omega)⟩, rfl⟩
    · refine replaceMarked_congr ?_ fun _ _ _ _ => rfl
      intro x hx
      rw [Nat.zero_add, Nat.zero_add, Nat.add_comm]
      refine (h.markAt_transformable ?_ ?_).symm
      · intro d hd
        exact (hafter d).mp hd
      · intro d hd _ hhigh
        exact h.exists_after hclear hd (by omega)
  · intro o length entity hmark _ hlt
    obtain ⟨d, hd, rfl, rfl, -⟩ := mem_of_markAt hmark
    have hfound := (mem_transformable.1 hd).1
    have := hstop d hfound (by omega)
    have := (h.inRange _ d hfound).1
    omega

/-! ## Releasing a head -/

/-- No span that the profile allows can be cut before the last `window` bytes of the text. -/
def AllowedClear (e : Engine) (window : ℕ) (text : Text) : Prop :=
  ∀ d ∈ e.found text, e.actionOn d = .allow →
    ∀ cut, isCharBoundary text cut = true → d.straddles cut → utf8Len text < cut + window

/-- `done` is a beginning of `whole` that ends at a clear cut, with no blocked span in it. -/
structure Reached (e : Engine) (whole done : Text) : Prop where
  clear : e.Clear whole (utf8Len done)
  noBlock : ∀ d ∈ e.found whole, d.stop ≤ utf8Len done → e.actionOn d ≠ .block

/-- What `advance` knows of a head that it scans again. -/
structure SafeHead (e : Engine) (pending head tail : Text) : Prop where
  split : pending = head ++ tail
  noBlock : e.NoBlock pending
  clear : ∀ d ∈ e.found pending, e.actionOn d ≠ .allow → ¬ d.straddles (utf8Len head)

theorem BoundedLocal.reached_nil (h : e.BoundedLocal window) (whole : Text) :
    e.Reached whole [] where
  clear _ _ hd := Nat.not_lt_zero _ hd.1
  noBlock d hd hstop := by
    have hlt := (h.inRange whole d hd).1
    have hzero : utf8Len [] = 0 := rfl
    omega

section Release

variable {whole done pending rest head tail : Text} (h : e.BoundedLocal window)
  (hallow : e.AllowedClear window whole) (hreached : e.Reached whole done)
  (hwhole : whole = done ++ (pending ++ rest)) (hsafe : e.SafeHead pending head tail)
  (hroom : window ≤ utf8Len tail ∨ tail = [] ∧ rest = [])

include h hreached hwhole in
/-- A span behind the beginning that has been read is found in what is pending. -/
theorem Reached.found_pending {d : Detection} (hd : d ∈ e.found whole)
    (hlow : utf8Len done < d.stop) (hhigh : d.stop ≤ utf8Len done + utf8Len pending) :
    ∃ d' ∈ e.found pending, d'.shift (utf8Len done) = d := by
  subst hwhole
  obtain ⟨d', hd', rfl⟩ := h.exists_after hreached.clear hd hlow
  refine ⟨d', h.ofPrefix pending rest d' hd' ?_, rfl⟩
  simp only [Detection.shift] at hhigh
  omega

include h hallow hreached hwhole hsafe hroom in
/-- A cut that is clear in what is pending is clear in the whole text. -/
theorem Reached.clear_append : e.Clear whole (utf8Len (done ++ head)) := by
  intro d hd hstraddle
  obtain ⟨hlow, hhigh⟩ := hstraddle
  rw [String.utf8Len_append] at hlow hhigh
  have hrange := h.inRange whole d hd
  have hlen : utf8Len whole = utf8Len done + (utf8Len head + utf8Len tail + utf8Len rest) := by
    rw [hwhole, hsafe.split, String.utf8Len_append, String.utf8Len_append, String.utf8Len_append]
  rcases hroom with hwindow | ⟨rfl, rfl⟩
  · have hshort := h.short whole d hd
    have hpending : utf8Len pending = utf8Len head + utf8Len tail := by
      rw [hsafe.split, String.utf8Len_append]
    obtain ⟨d', hd', rfl⟩ := hreached.found_pending h hwhole hd (by omega) (by omega)
    simp only [Detection.shift] at hlow hhigh
    by_cases haction : e.actionOn d' = .allow
    · have hboundary : isCharBoundary whole (utf8Len (done ++ head)) = true := by
        rw [hwhole, hsafe.split, List.append_assoc, ← List.append_assoc]
        exact isCharBoundary_utf8Len_append _ _
      have hend := hallow _ hd haction _ hboundary
        (by rw [String.utf8Len_append]; simp only [Detection.straddles, Detection.shift]; omega)
      rw [String.utf8Len_append] at hend
      omega
    · exact hsafe.clear d' hd' haction ⟨by omega, by omega⟩
  · have hzero : utf8Len [] = 0 := rfl
    omega

include h hallow hreached hwhole hsafe hroom in
theorem Reached.append : e.Reached whole (done ++ head) where
  clear := hreached.clear_append h hallow hwhole hsafe hroom
  noBlock d hd hstop := by
    by_cases hlow : d.stop ≤ utf8Len done
    · exact hreached.noBlock d hd hlow
    · have hpending : utf8Len pending = utf8Len head + utf8Len tail := by
        rw [hsafe.split, String.utf8Len_append]
      rw [String.utf8Len_append] at hstop
      obtain ⟨d', hd', rfl⟩ := hreached.found_pending h hwhole hd (by omega) (by omega)
      exact hsafe.noBlock d' hd'

include h hallow hreached hwhole hsafe hroom in
/-- The spans of what has been released then are spans of the whole text. -/
theorem Reached.found_append (d : Detection) :
    d ∈ e.found (done ++ head) ↔ d ∈ e.found whole ∧ d.stop ≤ utf8Len (done ++ head) := by
  have hcut : whole = (done ++ head) ++ (tail ++ rest) := by
    rw [hwhole, hsafe.split]
    simp only [List.append_assoc]
  have hclear := hreached.clear_append h hallow hwhole hsafe hroom
  rw [hcut] at hclear ⊢
  exact (h.split (done ++ head) (tail ++ rest) hclear).1 d

include h hallow hreached hwhole hsafe hroom in
theorem Reached.clear_done : e.Clear (done ++ head) (utf8Len done) := by
  intro d hd
  exact hreached.clear d ((hreached.found_append h hallow hwhole hsafe hroom d).mp hd).1

include h hallow hreached hwhole hsafe hroom in
/-- The head has no blocked span of its own. -/
theorem Reached.noBlock_head : e.NoBlock head := by
  intro d hd
  have hshift := ((h.split done head (hreached.clear_done h hallow hwhole hsafe hroom)).2 d).mp hd
  obtain ⟨hfound, hstop⟩ := (hreached.found_append h hallow hwhole hsafe hroom _).mp hshift
  exact (hreached.append h hallow hwhole hsafe hroom).noBlock (d.shift (utf8Len done)) hfound hstop

include h hallow hreached hwhole hsafe hroom in
/-- The head is rewritten as it is in the whole text. -/
theorem Reached.rewrite_head : e.rewrite apply (done ++ head) =
    e.rewrite apply done ++ e.rewrite apply head :=
  h.rewrite_append (hreached.clear_done h hallow hwhole hsafe hroom)

end Release

end Engine

end Governance
