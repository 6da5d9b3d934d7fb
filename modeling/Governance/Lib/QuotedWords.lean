import Governance.Lib.Utf8Text

/-!
# The words of a line with quotes

A shell, and whatever borrows its syntax, cuts a line into words at the blanks that no quote covers
and takes the quotes and the escapes out. Which characters are blank, which do not stand for
themselves and what an escape says differs; the automaton does not.

Two things are derived for any rules. What is written between two quotes, character by character,
is one word (`Spells.word`). And a line that is only its own words with blanks between them is read
back as these words exactly when each of them is plain (`read_intercalate_self_iff`): a quote or a
backslash takes room in the line and leaves none in the words.
-/

namespace QuotedWords

open Utf8Text (Text)

/-! ## The automaton -/

/-- What a character stands in. -/
inductive Quote where
  | bare
  | single
  | double
  deriving DecidableEq

/-- The quote that a character opens, and closes. -/
def Quote.ofMark : Char → Option Quote
  | '\'' => some single
  | '"' => some double
  | _ => none

theorem Quote.ofMark_eq_single_iff {c : Char} : ofMark c = some single ↔ c = '\'' := by
  unfold ofMark
  split <;> simp_all

theorem Quote.ofMark_eq_double_iff {c : Char} : ofMark c = some double ↔ c = '"' := by
  unfold ofMark
  split <;> simp_all

/-- What an escape says, as far as it has been read. -/
inductive Escape where
  | more
  | text (t : Text)
  | bad

structure Rules where
  isBlank : Char → Bool
  /-- The character does not stand for itself: the line is more than a list of words. -/
  isSpecial : Quote → Char → Bool
  /-- The character does not stand for itself at the beginning of a word. -/
  isSpecialFirst : Char → Bool
  /-- Whether a backslash begins an escape. -/
  escapes : Quote → Bool
  escape : Quote → Text → Escape

structure Reader where
  words : List Text
  /-- The word being read. -/
  word : Option Text
  quote : Quote
  /-- What follows the backslash of an escape being read. -/
  escaped : Option Text

def Reader.start : Reader := ⟨[], none, .bare, none⟩

def Reader.close (r : Reader) : Reader := { r with words := r.words ++ r.word.toList, word := none }

def Reader.append (r : Reader) (t : Text) : Reader :=
  if t = [] then r else { r with word := some (r.word.getD [] ++ t) }

def stepEscape (rules : Rules) (r : Reader) (seen : Text) : Option Reader :=
  match rules.escape r.quote seen with
  | .more => some { r with escaped := some seen }
  | .text t => some ({ r with escaped := none }.append t)
  | .bad => none

def stepBare (rules : Rules) (r : Reader) (c : Char) : Option Reader :=
  match Quote.ofMark c with
  | some q => some { r with word := some (r.word.getD []), quote := q }
  | none =>
    if rules.isBlank c then some r.close
    else if rules.isSpecial .bare c then none
    else if r.word.isNone ∧ rules.isSpecialFirst c then none
    else some (r.append [c])

def stepQuoted (rules : Rules) (r : Reader) (c : Char) : Option Reader :=
  if Quote.ofMark c = some r.quote then some { r with quote := .bare }
  else if rules.isSpecial r.quote c then none
  else some (r.append [c])

def step (rules : Rules) (r : Reader) (c : Char) : Option Reader :=
  match r.escaped with
  | some seen => stepEscape rules r (seen ++ [c])
  | none =>
    if c = '\\' ∧ rules.escapes r.quote then some { r with escaped := some [] }
    else if r.quote = .bare then stepBare rules r c
    else stepQuoted rules r c

/-- The words, once every quote is closed and every escape complete. -/
def finish (r : Reader) : Option (List Text) :=
  if r.quote = .bare ∧ r.escaped = none then some r.close.words else none

def read (rules : Rules) (line : Text) : Option (List Text) :=
  (line.foldlM (step rules) .start).bind finish

/-! ## Quoted texts -/

/-- Within a quote, the reader takes `spell c` for `means c`. -/
def Spells (rules : Rules) (q : Quote) (spell means : Char → Text) : Prop :=
  ∀ words word c, (spell c).foldlM (step rules) ⟨words, some word, q, none⟩ =
    some ⟨words, some (word ++ means c), q, none⟩

theorem Spells.text {rules : Rules} {q : Quote} {spell means : Char → Text}
    (h : Spells rules q spell means) (words : List Text) (word t : Text) :
    (t.flatMap spell).foldlM (step rules) ⟨words, some word, q, none⟩ =
      some ⟨words, some (word ++ t.flatMap means), q, none⟩ := by
  induction t generalizing word with
  | nil => simp
  | cons c t ih =>
    rw [List.flatMap_cons, List.foldlM_append, h, Option.bind_eq_bind, Option.bind_some, ih,
      List.flatMap_cons, List.append_assoc]

/-- A text is read as one word, wherever a word can begin. -/
def IsWord (rules : Rules) (piece word : Text) : Prop :=
  ∀ words, piece.foldlM (step rules) ⟨words, none, .bare, none⟩ =
    some ⟨words, some word, .bare, none⟩

theorem step_open {rules : Rules} {mark : Char} {q : Quote} (hmark : Quote.ofMark mark = some q)
    (words : List Text) (word : Option Text) :
    step rules ⟨words, word, .bare, none⟩ mark = some ⟨words, some (word.getD []), q, none⟩ := by
  have hne : mark ≠ '\\' := by
    rintro rfl
    cases hmark
  simp [step, hne, stepBare, hmark]

theorem step_shut {rules : Rules} {mark : Char} {q : Quote} (hmark : Quote.ofMark mark = some q)
    (words : List Text) (word : Option Text) :
    step rules ⟨words, word, q, none⟩ mark = some ⟨words, word, .bare, none⟩ := by
  have hne : mark ≠ '\\' := by
    rintro rfl
    cases hmark
  have hq : q ≠ .bare := by
    rintro rfl
    unfold Quote.ofMark at hmark
    split at hmark <;> cases hmark
  simp [step, hne, hq, stepQuoted, hmark]

/-- What is spelled between two marks is one word. -/
theorem Spells.word {rules : Rules} {q : Quote} {spell means : Char → Text}
    (h : Spells rules q spell means) {mark : Char} (hmark : Quote.ofMark mark = some q) (t : Text) :
    IsWord rules (mark :: t.flatMap spell ++ [mark]) (t.flatMap means) := by
  intro words
  rw [List.cons_append, List.foldlM_cons, step_open hmark, Option.bind_eq_bind, Option.bind_some,
    List.foldlM_append, Option.getD_none, h.text, Option.bind_eq_bind, Option.bind_some,
    List.nil_append, List.foldlM_cons, step_shut hmark]
  rfl

theorem step_blank {rules : Rules} {c : Char} (hc : rules.isBlank c) (hmark : Quote.ofMark c = none)
    (hslash : c ≠ '\\') (words : List Text) (word : Option Text) :
    step rules ⟨words, word, .bare, none⟩ c = some ⟨words ++ word.toList, none, .bare, none⟩ := by
  simp [step, hslash, stepBare, hmark, hc, Reader.close]

/-- Texts that are read as words, with a blank between them, are read as these words. -/
theorem foldlM_intercalate {rules : Rules} (hblank : rules.isBlank ' ') {pieces words : List Text}
    (h : List.Forall₂ (IsWord rules) pieces words) (before : List Text) :
    (([' '].intercalate pieces).foldlM (step rules) ⟨before, none, .bare, none⟩).bind finish =
      some (before ++ words) := by
  induction h generalizing before with
  | nil => simp [List.intercalate, finish, Reader.close]
  | @cons piece word pieces words hword hrest ih =>
    cases hrest with
    | nil =>
      rw [List.intercalate_singleton, hword, Option.bind_some]
      simp [finish, Reader.close]
    | @cons next nextWord _ _ _ _ =>
      rw [List.intercalate_cons_cons, List.append_assoc, List.foldlM_append, hword,
        Option.bind_eq_bind, Option.bind_some, List.foldlM_append, List.foldlM_cons,
        step_blank hblank rfl (by decide), Option.bind_eq_bind, Option.bind_some, List.foldlM_nil,
        Option.pure_def, Option.bind_some, ih]
      simp

theorem read_intercalate {rules : Rules} (hblank : rules.isBlank ' ') {pieces words : List Text}
    (h : List.Forall₂ (IsWord rules) pieces words) :
    read rules ([' '].intercalate pieces) = some words := by
  rw [read, Reader.start, foldlM_intercalate hblank h, List.nil_append]

theorem IsWord.read_eq {rules : Rules} {piece word : Text} (h : IsWord rules piece word) :
    read rules piece = some [word] := by
  rw [read, Reader.start, h, Option.bind_some]
  simp [finish, Reader.close]

/-! ## Plain words -/

/-- The character begins a quote or an escape. -/
def IsQuoting (rules : Rules) (c : Char) : Prop :=
  (c = '\\' ∧ rules.escapes .bare) ∨ (Quote.ofMark c).isSome

instance (rules : Rules) (c : Char) : Decidable (IsQuoting rules c) :=
  inferInstanceAs (Decidable (_ ∨ _))

/-- The character stands for itself, outside of quotes. -/
def Ordinary (rules : Rules) (c : Char) : Prop :=
  ¬ IsQuoting rules c ∧ rules.isBlank c = false ∧ rules.isSpecial .bare c = false

instance (rules : Rules) (c : Char) : Decidable (Ordinary rules c) :=
  inferInstanceAs (Decidable (_ ∧ _))

/-- A word that can be written as it is. -/
def Plain (rules : Rules) (word : Text) : Prop :=
  word ≠ [] ∧ (∀ c ∈ word, Ordinary rules c) ∧ ∀ c ∈ word.head?, rules.isSpecialFirst c = false

instance (rules : Rules) (word : Text) : Decidable (Plain rules word) :=
  inferInstanceAs (Decidable (_ ∧ _ ∧ _))

theorem step_ordinary {rules : Rules} {c : Char} (hc : Ordinary rules c) (words : List Text)
    (word : Option Text) (hfirst : word = none → rules.isSpecialFirst c = false) :
    step rules ⟨words, word, .bare, none⟩ c =
      some ⟨words, some (word.getD [] ++ [c]), .bare, none⟩ := by
  obtain ⟨hquoting, hblank, hspecial⟩ := hc
  rw [IsQuoting, not_or] at hquoting
  have hmark : Quote.ofMark c = none := Option.not_isSome_iff_eq_none.mp hquoting.2
  cases word with
  | none => simp [step, hquoting.1, stepBare, hmark, hblank, hspecial, hfirst rfl, Reader.append]
  | some word => simp [step, hquoting.1, stepBare, hmark, hblank, hspecial, Reader.append]

theorem foldlM_ordinary {rules : Rules} {t : Text} (h : ∀ c ∈ t, Ordinary rules c)
    (words : List Text) (word : Text) :
    t.foldlM (step rules) ⟨words, some word, .bare, none⟩ =
      some ⟨words, some (word ++ t), .bare, none⟩ := by
  induction t generalizing word with
  | nil => simp
  | cons c t ih =>
    rw [List.foldlM_cons,
      step_ordinary (h c List.mem_cons_self) words (some word) (fun h => nomatch h),
      Option.bind_eq_bind, Option.bind_some, Option.getD_some,
      ih fun d hd => h d (List.mem_cons_of_mem c hd), List.append_assoc, List.singleton_append]

theorem Plain.isWord {rules : Rules} {word : Text} (h : Plain rules word) :
    IsWord rules word word := by
  obtain ⟨hne, hordinary, hfirst⟩ := h
  intro words
  cases word with
  | nil => exact absurd rfl hne
  | cons c t =>
    rw [List.foldlM_cons,
      step_ordinary (hordinary c List.mem_cons_self) words none fun _ => hfirst c rfl,
      Option.bind_eq_bind, Option.bind_some,
      foldlM_ordinary fun d hd => hordinary d (List.mem_cons_of_mem c hd)]
    rfl

/-- What a reader does outside of quotes with a character that opens none. -/
theorem step_cases {rules : Rules} {r r' : Reader} {c : Char} (hbare : r.quote = .bare)
    (hescaped : r.escaped = none) (hc : ¬ IsQuoting rules c) (h : step rules r c = some r') :
    r' = r.close ∨
      Ordinary rules c ∧ (r.word = none → rules.isSpecialFirst c = false) ∧ r' = r.append [c] := by
  have hquoting := hc
  rw [IsQuoting, not_or] at hquoting
  have hmark : Quote.ofMark c = none := Option.not_isSome_iff_eq_none.mp hquoting.2
  simp only [step, hescaped, hbare, hquoting.1, if_false, if_true, stepBare, hmark] at h
  split_ifs at h with hblank hspecial hfirst
  · exact .inl (Option.some.inj h).symm
  · refine .inr ⟨⟨hc, by simpa using hblank, by simpa using hspecial⟩, fun hnone => ?_,
      (Option.some.inj h).symm⟩
    simpa [hnone] using hfirst

/-- The reader is outside of quotes and has met only plain words. -/
structure Simple (rules : Rules) (r : Reader) : Prop where
  bare : r.quote = .bare
  escaped : r.escaped = none
  words : ∀ w ∈ r.words, Plain rules w
  word : ∀ w ∈ r.word, Plain rules w

theorem Simple.close {rules : Rules} {r : Reader} (h : Simple rules r) : Simple rules r.close where
  bare := h.bare
  escaped := h.escaped
  words := by
    intro w hw
    rcases List.mem_append.mp hw with hw | hw
    · exact h.words w hw
    · exact h.word w (Option.mem_toList.mp hw)
  word := fun w hw => nomatch hw

theorem Simple.step {rules : Rules} {r r' : Reader} {c : Char} (h : Simple rules r)
    (hc : ¬ IsQuoting rules c) (hstep : QuotedWords.step rules r c = some r') :
    Simple rules r' := by
  obtain rfl | ⟨hordinary, hfirst, rfl⟩ := step_cases h.bare h.escaped hc hstep
  · exact h.close
  · refine ⟨h.bare, h.escaped, h.words, ?_⟩
    rintro w ⟨⟩
    cases hword : r.word with
    | none =>
      refine ⟨by simp, by simpa using hordinary, ?_⟩
      rintro d ⟨⟩
      exact hfirst hword
    | some word =>
      obtain ⟨hne, hall, hhead⟩ := h.word word hword
      refine ⟨by simp, ?_, ?_⟩
      · intro d hd
        rcases List.mem_append.mp hd with hd | hd
        · exact hall d hd
        · rw [List.mem_singleton.mp hd]
          exact hordinary
      · rw [Option.getD_some, List.head?_append_of_ne_nil _ hne]
        exact hhead

theorem Simple.run {rules : Rules} {r r' : Reader} {line : Text} (h : Simple rules r)
    (hline : ∀ c ∈ line, ¬ IsQuoting rules c)
    (hrun : line.foldlM (QuotedWords.step rules) r = some r') : Simple rules r' := by
  induction line generalizing r with
  | nil =>
    obtain rfl : r = r' := by simpa using hrun
    exact h
  | cons c line ih =>
    rw [List.foldlM_cons] at hrun
    obtain ⟨next, hstep, hrest⟩ := Option.bind_eq_some_iff.mp hrun
    exact ih (h.step (hline c List.mem_cons_self) hstep)
      (fun d hd => hline d (List.mem_cons_of_mem c hd)) hrest

/-! ## What the words take of the line -/

/-- An escape says no more than it takes, and outside of quotes less. -/
structure Frugal (rules : Rules) : Prop where
  bare : ∀ seen t, rules.escape .bare seen = .text t → t.length ≤ seen.length
  quoted : ∀ q seen t, rules.escape q seen = .text t → t.length ≤ seen.length + 1

/-- The room words take, with a blank behind each. -/
def size (words : List Text) : ℕ := (words.map fun w => w.length + 1).sum

/-- What has been read of an escape, with its backslash if that can end up in a word. -/
def held (q : Quote) (escaped : Option Text) : ℕ :=
  escaped.elim 0 fun seen => if q = .bare then seen.length else seen.length + 1

def Reader.weight (r : Reader) : ℕ :=
  size r.words + r.word.elim 0 List.length + held r.quote r.escaped

theorem weight_append (r : Reader) (t : Text) : (r.append t).weight = r.weight + t.length := by
  rw [Reader.append]
  split_ifs with ht
  · rw [ht, List.length_nil, Nat.add_zero]
  · cases hword : r.word with
    | none =>
      simp [Reader.weight, hword]
      omega
    | some word =>
      simp [Reader.weight, hword]
      omega

theorem weight_close_le (r : Reader) : r.close.weight ≤ r.weight + 1 := by
  cases hword : r.word with
  | none => simp [Reader.weight, Reader.close, hword]
  | some word =>
    simp [Reader.weight, Reader.close, size, hword]
    omega

theorem weight_stepEscape {rules : Rules} (hfrugal : Frugal rules) {r r' : Reader} {seen : Text}
    {c : Char} (hseen : r.escaped = some seen) (h : stepEscape rules r (seen ++ [c]) = some r') :
    r'.weight ≤ r.weight + 1 := by
  rw [stepEscape] at h
  split at h
  · obtain rfl := Option.some.inj h
    simp only [Reader.weight, hseen, held, Option.elim_some, List.length_append,
      List.length_singleton]
    split_ifs <;> omega
  · rename_i t ht
    obtain rfl := Option.some.inj h
    rw [weight_append]
    simp only [Reader.weight, hseen, held, Option.elim_some, Option.elim_none]
    split_ifs with hbare
    · rw [hbare] at ht
      have hlen := hfrugal.bare _ _ ht
      rw [List.length_append, List.length_singleton] at hlen
      omega
    · have hlen := hfrugal.quoted _ _ _ ht
      rw [List.length_append, List.length_singleton] at hlen
      omega
  · cases h

theorem weight_stepBare {rules : Rules} {r r' : Reader} {c : Char} (hnone : r.escaped = none)
    (h : stepBare rules r c = some r') : r'.weight ≤ r.weight + 1 := by
  rw [stepBare] at h
  split at h
  · obtain rfl := Option.some.inj h
    cases hword : r.word <;> simp [Reader.weight, held, hnone, hword]
  · split_ifs at h
    · obtain rfl := Option.some.inj h
      exact weight_close_le r
    · obtain rfl := Option.some.inj h
      rw [weight_append]
      rfl

theorem weight_stepQuoted {rules : Rules} {r r' : Reader} {c : Char} (hnone : r.escaped = none)
    (h : stepQuoted rules r c = some r') : r'.weight ≤ r.weight + 1 := by
  rw [stepQuoted] at h
  split_ifs at h
  · obtain rfl := Option.some.inj h
    simp [Reader.weight, held, hnone]
  · obtain rfl := Option.some.inj h
    rw [weight_append]
    rfl

theorem weight_step {rules : Rules} (hfrugal : Frugal rules) {r r' : Reader} {c : Char}
    (h : step rules r c = some r') : r'.weight ≤ r.weight + 1 := by
  rw [step] at h
  cases hescaped : r.escaped with
  | some seen =>
    simp only [hescaped] at h
    exact weight_stepEscape hfrugal hescaped h
  | none =>
    simp only [hescaped] at h
    split_ifs at h
    · obtain rfl := Option.some.inj h
      simp only [Reader.weight, hescaped, held, Option.elim_some, Option.elim_none, List.length_nil]
      split_ifs <;> omega
    · exact weight_stepBare hescaped h
    · exact weight_stepQuoted hescaped h

/-- A character that begins a quote or an escape leaves nothing in the words. -/
theorem weight_step_of_isQuoting {rules : Rules} {r r' : Reader} {c : Char}
    (hbare : r.quote = .bare) (hnone : r.escaped = none) (hc : IsQuoting rules c)
    (h : step rules r c = some r') : r'.weight ≤ r.weight := by
  simp only [step, hnone, hbare, if_true] at h
  split_ifs at h with hslash
  · obtain rfl := Option.some.inj h
    simp [Reader.weight, held, hbare, hnone]
  · obtain ⟨q, hq⟩ := Option.isSome_iff_exists.mp (hc.resolve_left hslash)
    rw [stepBare, hq] at h
    obtain rfl := Option.some.inj h
    cases hword : r.word <;> simp [Reader.weight, held, hnone, hword]

theorem weight_run {rules : Rules} (hfrugal : Frugal rules) {r r' : Reader} {line : Text}
    (h : line.foldlM (step rules) r = some r') : r'.weight ≤ r.weight + line.length := by
  induction line generalizing r with
  | nil =>
    obtain rfl : r = r' := by simpa using h
    exact Nat.le_add_right _ _
  | cons c line ih =>
    rw [List.foldlM_cons] at h
    obtain ⟨next, hstep, hrest⟩ := Option.bind_eq_some_iff.mp h
    have hfirst := weight_step hfrugal hstep
    have hlast := ih hrest
    rw [List.length_cons]
    omega

/-- A line with a quote or an escape in it has more room than its words take. -/
theorem weight_run_lt {rules : Rules} (hfrugal : Frugal rules) {r r' : Reader} {line : Text}
    (hbare : r.quote = .bare) (hnone : r.escaped = none) (hline : ∃ c ∈ line, IsQuoting rules c)
    (h : line.foldlM (step rules) r = some r') : r'.weight < r.weight + line.length := by
  induction line generalizing r with
  | nil => simp at hline
  | cons c line ih =>
    rw [List.foldlM_cons] at h
    obtain ⟨next, hstep, hrest⟩ := Option.bind_eq_some_iff.mp h
    rw [List.length_cons]
    by_cases hc : IsQuoting rules c
    · have hfirst := weight_step_of_isQuoting hbare hnone hc hstep
      have hlast := weight_run hfrugal hrest
      omega
    · have hfirst := weight_step hfrugal hstep
      have hlast : r'.weight < next.weight + line.length := by
        obtain ⟨d, hd, hquoting⟩ := hline
        have hmem : d ∈ line := (List.mem_cons.mp hd).resolve_left fun heq => hc (heq ▸ hquoting)
        -- the reader is still outside of quotes
        obtain rfl | ⟨-, -, rfl⟩ := step_cases hbare hnone hc hstep
        · exact ih hbare hnone ⟨d, hmem, hquoting⟩ hrest
        · exact ih hbare hnone ⟨d, hmem, hquoting⟩ hrest
      omega

theorem size_finish_le {r : Reader} {words : List Text} (h : finish r = some words) :
    size words ≤ r.weight + 1 := by
  rw [finish] at h
  split_ifs at h
  obtain rfl := Option.some.inj h
  have hclose := weight_close_le r
  rw [Reader.weight] at hclose
  omega

theorem length_intercalate_add_one {words : List Text} (h : words ≠ []) :
    ([' '].intercalate words).length + 1 = size words := by
  induction words with
  | nil => exact absurd rfl h
  | cons w words ih =>
    cases words with
    | nil => simp [size]
    | cons next words =>
      have hrest := ih (List.cons_ne_nil next words)
      rw [List.intercalate_cons_cons, List.length_append, List.length_append,
        List.length_singleton]
      simp only [size, List.map_cons, List.sum_cons] at hrest ⊢
      omega

/-- Words written as they are, with a blank between them, are read back exactly when each of them
is plain. -/
theorem read_intercalate_self_iff {rules : Rules} (hblank : rules.isBlank ' ')
    (hfrugal : Frugal rules) (words : List Text) :
    read rules ([' '].intercalate words) = some words ↔ ∀ w ∈ words, Plain rules w := by
  constructor
  · intro h
    obtain ⟨r, hrun, hfinish⟩ := Option.bind_eq_some_iff.mp h
    by_cases hquoting : ∃ c ∈ [' '].intercalate words, IsQuoting rules c
    · have hlt := weight_run_lt hfrugal rfl rfl hquoting hrun
      have hsize := size_finish_le hfinish
      have hne : words ≠ [] := by
        rintro rfl
        simp [List.intercalate] at hquoting
      have hlength := length_intercalate_add_one hne
      have hstart : Reader.start.weight = 0 := rfl
      omega
    · push Not at hquoting
      have hstart : Simple rules .start :=
        ⟨rfl, rfl, fun w hw => (nomatch hw), fun w hw => (nomatch hw)⟩
      have hsimple := (hstart.run hquoting hrun).close
      rw [finish] at hfinish
      split_ifs at hfinish
      obtain rfl := Option.some.inj hfinish
      exact hsimple.words
  · intro h
    exact read_intercalate hblank (List.forall₂_same.mpr fun w hw => (h w hw).isWord)

end QuotedWords
