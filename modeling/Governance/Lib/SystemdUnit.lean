import Governance.Lib.QuotedWords
import Governance.Lib.PercentCoding
import Governance.Lib.Cutting

/-!
# Command lines of a systemd unit

`ExecStart=` as systemd reads it: the line is cut into words, the quotes and the C escapes are taken
out, the specifiers of every word are expanded, and then the variables in the arguments. What
specifiers and variables stand for is the host's; whether a word comes through is the word's: one
with a closed `${…}` or with `$$` in it, or with a dollar sign and no brace ahead of it, does not
come through on every host, any other does (`forall_argument_eq_iff`).
-/

namespace SystemdUnit

open Utf8Text (Text)
open QuotedWords

/-- The characters that end a line. -/
def isLineEnd (c : Char) : Bool := c = '\n' ∨ c = '\r' ∨ c = '\x00'

/-- The first line of a text, with the lines it is continued on. -/
def logicalLine : Text → Text
  | '\\' :: c :: t =>
    if isLineEnd c then ' ' :: logicalLine t else '\\' :: c :: logicalLine t
  | c :: t => if isLineEnd c then [] else c :: logicalLine t
  | [] => []

/-! ## Words -/

/-- The escapes of one character. -/
def characterEscape : Char → Option Char
  | 'a' => some '\x07'
  | 'b' => some '\x08'
  | 'f' => some '\x0c'
  | 'n' => some '\n'
  | 'r' => some '\r'
  | 't' => some '\t'
  | 'v' => some '\x0b'
  | 's' => some ' '
  | '\\' => some '\\'
  | '"' => some '"'
  | '\'' => some '\''
  | _ => none

/-- An escape of a number of digits. Those of a byte are read where the byte is a character. -/
def numberEscape (base count : ℕ) (digits : Text) : Escape :=
  match PercentCoding.number base digits with
  | none => .bad
  | some n =>
    if digits.length < count then .more
    else if 0 < n ∧ n.isValidChar ∧ (n < 128 ∨ 3 < count) then .text [Char.ofNat n]
    else .bad

def escape : Text → Escape
  | [] => .more
  | c :: digits =>
    match characterEscape c with
    | some d => .text [d]
    | none =>
      if c = 'x' then numberEscape 16 2 digits
      else if c = 'u' then numberEscape 16 4 digits
      else if c = 'U' then numberEscape 16 8 digits
      else if c.isDigit then numberEscape 8 3 (c :: digits)
      else .text ('\\' :: c :: digits)

/-- No character is special to systemd but the semicolon that begins another command, and a line
with two commands is not read. -/
def rules : Rules where
  isBlank c := c = ' ' ∨ c = '\t' ∨ c = '\n' ∨ c = '\r'
  isSpecial _ _ := false
  isSpecialFirst c := c = ';'
  escapes _ := true
  escape _ := escape

/-! ## Specifiers and variables -/

/-- What the words of a unit stand for on a host. -/
structure Host where
  specifier : Char → Option Text
  value : Text → Option Text
  /-- A value cut into words. -/
  split : Text → List Text

/-- The specifiers of a word. -/
def expand (specifier : Char → Option Text) : Text → Text
  | '%' :: c :: t =>
    (if c = '%' then ['%'] else (specifier c).getD ['%', c]) ++ expand specifier t
  | c :: t => c :: expand specifier t
  | [] => []

/-- Where the reader of variables is in a word. -/
inductive Scan where
  | text
  | dollar
  | brace (name : Text)

/-- What has been read and not been passed on. -/
def Scan.pending : Scan → Text
  | text => []
  | dollar => ['$']
  | brace name => '$' :: '\x7b' :: name

/-- The variables in a word. -/
def substitute (value : Text → Option Text) : Scan → Text → Text
  | scan, [] => scan.pending
  | .text, c :: t =>
    if c = '$' then substitute value .dollar t else c :: substitute value .text t
  | .dollar, c :: t =>
    if c = '\x7b' then substitute value (.brace []) t
    else if c = '$' then '$' :: substitute value .text t
    else '$' :: c :: substitute value .text t
  | .brace name, c :: t =>
    if c = '\x7d' then (value name).getD [] ++ substitute value .text t
    else if c = ':' then Scan.pending (.brace name) ++ ':' :: substitute value .text t
    else substitute value (.brace (name ++ [c])) t

/-- A word that is a variable: the words of its value take its place. -/
def wordVariable : Text → Option Text
  | ['$'] => some []
  | '$' :: c :: t => if c = '\x7b' ∨ c = '$' then none else some (c :: t)
  | _ => none

/-- The arguments a word stands for. -/
def argument (host : Host) (word : Text) : List Text :=
  match wordVariable word with
  | some name => (host.value name).elim [] host.split
  | none => [substitute host.value .text word]

/-! ## Commands -/

structure Command where
  path : Text
  argv : List Text
  deriving DecidableEq

/-- The characters ahead of the path of a program that say how it is run. -/
def isPrefixChar (c : Char) : Bool := c ∈ ['@', '-', ':', '+', '!', '|']

/-- The program is given by an absolute path or by a name. -/
def isExecutable (path : Text) : Bool := path ≠ [] ∧ (path.head? = some '/' ∨ '/' ∉ path)

/-- The command of some words. -/
def commandOf (host : Host) (program : Text) (args : List Text) : Option Command :=
  let flags := program.takeWhile isPrefixChar
  let path := program.dropWhile isPrefixChar
  let arguments (args : List Text) :=
    if ':' ∈ flags then args else args.flatMap (argument host)
  if isExecutable path = false then none
  else if '@' ∈ flags then
    match args with
    | [] => none
    | name :: args => some ⟨path, name :: arguments args⟩
  else some ⟨path, path :: arguments args⟩

/-- `ExecStart=`. -/
def key : Text := "ExecStart=".toList

/-- The command that a unit runs, from its `ExecStart=` on. -/
def execStart (host : Host) (unit : Text) : Option Command :=
  ((logicalLine unit).dropPrefix? key).bind fun line =>
    (QuotedWords.read rules line).bind fun
      | [] => none
      | program :: args =>
        commandOf host (expand host.specifier program) (args.map (expand host.specifier))

/-! ## Words in double quotes -/

/-- A character within double quotes. -/
def spell (c : Char) : Text :=
  if c = '\\' then ['\\', '\\']
  else if c = '"' then ['\\', '"']
  else if c = '%' then ['%', '%']
  else [c]

/-- What a spelled character is before the specifiers are expanded. -/
def unexpanded (c : Char) : Text := if c = '%' then ['%', '%'] else [c]

def quoted (word : Text) : Text := '"' :: word.flatMap spell ++ ['"']

theorem spells_double : Spells rules .double spell unexpanded := by
  intro words word c
  rw [spell, unexpanded]
  by_cases hslash : c = '\\'
  · subst hslash
    simp [step, stepEscape, rules, escape, characterEscape, Reader.append]
  · by_cases hmark : c = '"'
    · subst hmark
      simp [step, stepEscape, rules, escape, characterEscape, Reader.append]
    · have hopen : Quote.ofMark c ≠ some .double := mt Quote.ofMark_eq_double_iff.1 hmark
      by_cases hpercent : c = '%'
      · subst hpercent
        simp [step, stepQuoted, rules, hopen, Reader.append]
      · simp [step, stepQuoted, rules, hslash, hmark, hpercent, hopen, Reader.append]

theorem isWord_quoted (word : Text) : IsWord rules (quoted word) (word.flatMap unexpanded) :=
  spells_double.word rfl word

theorem expand_unexpanded (specifier : Char → Option Text) (word : Text) :
    expand specifier (word.flatMap unexpanded) = word := by
  induction word with
  | nil => rw [List.flatMap_nil, expand]
  | cons c word ih =>
    rw [List.flatMap_cons, unexpanded]
    split_ifs with hc
    · subst hc
      simp [expand, ih]
    · rw [List.singleton_append, expand, ih]
      rintro d t rfl
      contradiction

/-! ## The line of a command -/

/-- The text ends no line and leaves none open. -/
def Passes (t : Text) : Prop := ∀ rest, logicalLine (t ++ rest) = t ++ logicalLine rest

theorem Passes.append {t t' : Text} (h : Passes t) (h' : Passes t') : Passes (t ++ t') := by
  intro rest
  rw [List.append_assoc, h, h', List.append_assoc]

theorem passes_cons {c : Char} {t : Text} (hslash : c ≠ '\\') (hend : isLineEnd c = false)
    (h : Passes t) : Passes (c :: t) := by
  intro rest
  rw [List.cons_append, logicalLine, h, hend]
  · rfl
  · rintro d t rfl
    contradiction

theorem passes_nil : Passes [] := fun _ => rfl

theorem passes_of_forall {t : Text} (h : ∀ c ∈ t, c ≠ '\\' ∧ isLineEnd c = false) : Passes t := by
  induction t with
  | nil => exact passes_nil
  | cons c t ih =>
    obtain ⟨hslash, hend⟩ := h c List.mem_cons_self
    exact passes_cons hslash hend (ih fun d hd => h d (List.mem_cons_of_mem c hd))

theorem passes_key : Passes key := by
  have hkey : key = ['E', 'x', 'e', 'c', 'S', 't', 'a', 'r', 't', '='] := by decide
  rw [hkey]
  exact passes_of_forall (by simp [isLineEnd])

theorem passes_spell {c : Char} (hend : isLineEnd c = false) : Passes (spell c) := by
  rw [spell]
  split_ifs with hslash hmark hpercent
  · intro rest
    simp [logicalLine, isLineEnd]
  · intro rest
    simp [logicalLine, isLineEnd]
  · exact passes_of_forall (by simp [isLineEnd])
  · exact passes_cons hslash hend passes_nil

theorem passes_flatMap_spell {word : Text} (h : ∀ c ∈ word, isLineEnd c = false) :
    Passes (word.flatMap spell) := by
  induction word with
  | nil => exact passes_nil
  | cons c word ih =>
    rw [List.flatMap_cons]
    exact (passes_spell (h c List.mem_cons_self)).append
      (ih fun d hd => h d (List.mem_cons_of_mem c hd))

theorem passes_quoted {word : Text} (h : ∀ c ∈ word, isLineEnd c = false) :
    Passes (quoted word) :=
  (passes_cons (by decide) (by decide) (passes_flatMap_spell h)).append
    (passes_of_forall (by simp [isLineEnd]))

theorem passes_intercalate {words : List Text} (h : ∀ w ∈ words, ∀ c ∈ w, isLineEnd c = false) :
    Passes ([' '].intercalate (words.map quoted)) := by
  induction words with
  | nil => exact passes_nil
  | cons w words ih =>
    have hfirst := passes_quoted (h w List.mem_cons_self)
    have hrest := ih fun w' hw' => h w' (List.mem_cons_of_mem w hw')
    cases words with
    | nil => simpa using hfirst
    | cons w' words =>
      rw [List.map_cons, List.map_cons, List.intercalate_cons_cons]
      exact (hfirst.append (passes_of_forall (by simp [isLineEnd]))).append hrest

theorem logicalLine_of_isLineEnd {e : Char} (he : isLineEnd e = true) (rest : Text) :
    logicalLine (e :: rest) = [] := by
  rw [logicalLine, if_pos he]
  rintro d t rfl
  exact absurd he (by decide)

/-- The line ends within a word that has a line end. -/
theorem logicalLine_spelled {word : Text} (h : ∃ c ∈ word, isLineEnd c = true) (rest : Text) :
    ∃ front : Text, logicalLine (word.flatMap spell ++ rest) = front.flatMap spell := by
  induction word with
  | nil => simp at h
  | cons c word ih =>
    rw [List.flatMap_cons, List.append_assoc]
    by_cases hc : isLineEnd c = true
    · have hspell : spell c = [c] := by
        rw [spell, if_neg, if_neg, if_neg] <;> rintro rfl <;> exact absurd hc (by decide)
      exact ⟨[], by rw [hspell, List.singleton_append, logicalLine_of_isLineEnd hc]; rfl⟩
    · obtain ⟨d, hd, hend⟩ := h
      have hmem : d ∈ word := (List.mem_cons.mp hd).resolve_left fun heq => hc (heq ▸ hend)
      obtain ⟨front, hfront⟩ := ih ⟨d, hmem, hend⟩
      refine ⟨c :: front, ?_⟩
      rw [passes_spell (by simpa using hc), hfront, List.flatMap_cons]

/-- Within a quote that the line does not close, nothing is read. -/
theorem read_cut (before : List Text) (front : Text) :
    (('"' :: front.flatMap spell).foldlM (step rules) ⟨before, none, .bare, none⟩).bind finish =
      none := by
  rw [List.foldlM_cons, step_open (q := .double) rfl, Option.bind_eq_bind, Option.bind_some,
    spells_double.text, Option.bind_some, finish, if_neg (by simp)]

theorem read_logicalLine_of_lineEnd {words : List Text}
    (h : ∃ w ∈ words, ∃ c ∈ w, isLineEnd c = true) (before : List Text) (rest : Text) :
    ((logicalLine ([' '].intercalate (words.map quoted) ++ rest)).foldlM (step rules)
      ⟨before, none, .bare, none⟩).bind finish = none := by
  induction words generalizing before with
  | nil => simp at h
  | cons w words ih =>
    have hopen : Passes ['"'] := passes_of_forall (by simp [isLineEnd])
    by_cases hw : ∃ c ∈ w, isLineEnd c = true
    · -- whatever follows the first word is not seen
      obtain ⟨more, hmore⟩ : ∃ more, [' '].intercalate ((w :: words).map quoted) ++ rest =
          ['"'] ++ (w.flatMap spell ++ more) := by
        cases words with
        | nil => exact ⟨'"' :: rest, by simp [quoted]⟩
        | cons w' words =>
          exact ⟨'"' :: ' ' :: [' '].intercalate ((w' :: words).map quoted) ++ rest, by
            simp [quoted, List.intercalate_cons_cons]⟩
      obtain ⟨front, hfront⟩ := logicalLine_spelled hw more
      rw [hmore, hopen, hfront, List.singleton_append, read_cut]
    · have hclean : ∀ c ∈ w, isLineEnd c = false := by
        intro c hc
        by_contra hend
        exact hw ⟨c, hc, by simpa using hend⟩
      obtain ⟨w₁, hw₁, hend⟩ := h
      have hmem : w₁ ∈ words := by
        refine (List.mem_cons.mp hw₁).resolve_left ?_
        rintro rfl
        exact hw hend
      cases words with
      | nil => cases hmem
      | cons w' words =>
        have hblank : Passes [' '] := passes_of_forall (by simp [isLineEnd])
        rw [List.map_cons, List.map_cons, List.intercalate_cons_cons, List.append_assoc,
          List.append_assoc, passes_quoted hclean, hblank, List.foldlM_append, isWord_quoted,
          Option.bind_eq_bind, Option.bind_some, List.singleton_append, List.foldlM_cons,
          step_blank rfl rfl (by decide), Option.bind_eq_bind, Option.bind_some]
        exact ih ⟨w₁, hmem, hend⟩ _

/-! ## Words without variables -/

/-- Nothing is put in the place of a variable or of a doubled dollar sign. -/
def isLiteral : Scan → Text → Bool
  | _, [] => true
  | .text, c :: t => if c = '$' then isLiteral .dollar t else isLiteral .text t
  | .dollar, c :: t =>
    if c = '\x7b' then isLiteral (.brace []) t
    else if c = '$' then false
    else isLiteral .text t
  | .brace name, c :: t =>
    if c = '\x7d' then false
    else if c = ':' then isLiteral .text t
    else isLiteral (.brace (name ++ [c])) t

/-- The word is no variable and has none in it. -/
def Literal (word : Text) : Prop := wordVariable word = none ∧ isLiteral .text word = true

instance (word : Text) : Decidable (Literal word) := inferInstanceAs (Decidable (_ ∧ _))

theorem isLiteral_of_notMem {word : Text} (h : '$' ∉ word) : isLiteral .text word = true := by
  induction word with
  | nil => rfl
  | cons c word ih =>
    rw [List.mem_cons, not_or] at h
    rw [isLiteral, if_neg (Ne.symm h.1), ih h.2]

/-- A word without a dollar sign is a literal. -/
theorem literal_of_notMem {word : Text} (h : '$' ∉ word) : Literal word := by
  refine ⟨?_, isLiteral_of_notMem h⟩
  unfold wordVariable
  split
  · simp at h
  · simp at h
  · rfl

theorem substitute_of_isLiteral (value : Text → Option Text) {scan : Scan} {t : Text}
    (h : isLiteral scan t = true) : substitute value scan t = scan.pending ++ t := by
  induction t generalizing scan with
  | nil => simp [substitute]
  | cons c t ih =>
    cases scan with
    | text =>
      rw [isLiteral] at h
      rw [substitute]
      split_ifs at h ⊢ with hc
      · rw [ih h, hc]
        rfl
      · rw [ih h]
        rfl
    | dollar =>
      rw [isLiteral] at h
      rw [substitute]
      split_ifs at h ⊢ with hbrace hdollar
      · rw [ih h, hbrace]
        rfl
      · rw [ih h]
        rfl
    | brace name =>
      rw [isLiteral] at h
      rw [substitute]
      split_ifs at h ⊢ with hclose hcolon
      · rw [ih h, hcolon]
        rfl
      · rw [ih h]
        simp [Scan.pending]

theorem length_substitute_le (scan : Scan) (t : Text) :
    (substitute (fun _ => none) scan t).length ≤ scan.pending.length + t.length := by
  induction t generalizing scan with
  | nil => simp [substitute]
  | cons c t ih =>
    have htext := ih .text
    cases scan with
    | text =>
      have hdollar := ih .dollar
      rw [substitute]
      split_ifs
      all_goals simp only [Scan.pending, List.length_cons, List.length_nil] at htext hdollar ⊢
      all_goals omega
    | dollar =>
      have hbrace := ih (.brace [])
      rw [substitute]
      split_ifs
      all_goals simp only [Scan.pending, List.length_cons, List.length_nil] at htext hbrace ⊢
      all_goals omega
    | brace name =>
      have hmore := ih (.brace (name ++ [c]))
      rw [substitute]
      split_ifs
      all_goals
        simp only [Scan.pending, List.length_cons, List.length_append, List.length_nil,
          Option.getD_none] at htext hmore ⊢
      all_goals omega

/-- With no variable set, what is no literal gets shorter. -/
theorem length_substitute_lt {scan : Scan} {t : Text} (h : isLiteral scan t = false) :
    (substitute (fun _ => none) scan t).length < scan.pending.length + t.length := by
  induction t generalizing scan with
  | nil => cases scan <;> cases h
  | cons c t ih =>
    cases scan with
    | text =>
      rw [isLiteral] at h
      rw [substitute]
      split_ifs at h ⊢ with hc
      all_goals
        have hlt := ih h
        simp only [Scan.pending, List.length_cons, List.length_nil] at hlt ⊢
        omega
    | dollar =>
      rw [isLiteral] at h
      rw [substitute]
      split_ifs at h ⊢ with hbrace hdollar
      · have hlt := ih h
        simp only [Scan.pending, List.length_cons, List.length_nil] at hlt ⊢
        omega
      · have hle := length_substitute_le .text t
        simp only [Scan.pending, List.length_cons, List.length_nil] at hle ⊢
        omega
      · have hlt := ih h
        simp only [Scan.pending, List.length_cons, List.length_nil] at hlt ⊢
        omega
    | brace name =>
      rw [isLiteral] at h
      rw [substitute]
      split_ifs at h ⊢ with hclose hcolon
      · have hle := length_substitute_le .text t
        simp only [Scan.pending, List.length_cons, List.length_append, List.length_nil,
          Option.getD_none] at hle ⊢
        omega
      all_goals
        have hlt := ih h
        simp only [Scan.pending, List.length_cons, List.length_append, List.length_nil] at hlt ⊢
        omega

/-- A host with no specifiers and no variables. -/
def Host.bare : Host := ⟨fun _ => none, fun _ => none, fun _ => []⟩

theorem argument_of_literal (host : Host) {word : Text} (h : Literal word) :
    argument host word = [word] := by
  rw [argument, h.1]
  exact congrArg (fun t => [t]) (substitute_of_isLiteral host.value h.2)

theorem literal_of_argument_bare {word : Text} (h : argument .bare word = [word]) :
    Literal word := by
  rw [argument] at h
  cases hvariable : wordVariable word with
  | some name =>
    rw [hvariable] at h
    cases h
  | none =>
    rw [hvariable] at h
    refine ⟨hvariable, ?_⟩
    by_contra hfalse
    have hlt := length_substitute_lt (eq_false_of_ne_true hfalse)
    have heq : substitute (fun _ => none) .text word = word := (List.cons.inj h).1
    rw [heq, Scan.pending, List.length_nil, Nat.zero_add] at hlt
    exact lt_irrefl _ hlt

theorem length_argument_bare_le (word : Text) : (argument .bare word).length ≤ 1 := by
  rw [argument]
  split
  · exact Nat.zero_le 1
  · exact Nat.le_refl 1

/-- Arguments come through on every host exactly when each of them is a literal. -/
theorem forall_argument_eq_iff (args : List Text) :
    (∀ host, args.flatMap (argument host) = args) ↔ ∀ a ∈ args, Literal a := by
  constructor
  · intro h
    have hbare : args.flatMap (argument .bare) = args.flatMap ([·]) := by
      rw [h .bare, List.flatMap_singleton']
    intro a ha
    exact literal_of_argument_bare
      ((Cutting.flatMap_eq_flatMap_iff length_argument_bare_le).1 hbare a ha)
  · intro h host
    calc args.flatMap (argument host) = args.flatMap ([·]) :=
          List.flatMap_congr fun a ha => argument_of_literal host (h a ha)
      _ = args := List.flatMap_singleton' args

/-! ## Commands -/

/-- A program that is run as it is written. -/
def IsProgram (program : Text) : Prop :=
  isExecutable program = true ∧ ∀ c ∈ program.head?, isPrefixChar c = false

instance (program : Text) : Decidable (IsProgram program) := inferInstanceAs (Decidable (_ ∧ _))

theorem takeWhile_isPrefixChar_iff {program : Text} :
    program.takeWhile isPrefixChar = [] ↔ ∀ c ∈ program.head?, isPrefixChar c = false := by
  cases program with
  | nil => simp
  | cons c t => cases hc : isPrefixChar c <;> simp [hc]

theorem commandOf_of_isProgram (host : Host) {program : Text} (h : IsProgram program)
    (args : List Text) :
    commandOf host program args = some ⟨program, program :: args.flatMap (argument host)⟩ := by
  have htake := takeWhile_isPrefixChar_iff.2 h.2
  have hdrop : program.dropWhile isPrefixChar = program := by
    have happend := program.takeWhile_append_dropWhile (p := isPrefixChar)
    rwa [htake, List.nil_append] at happend
  simp [commandOf, htake, hdrop, h.1]

theorem path_of_commandOf {host : Host} {program : Text} {args : List Text} {command : Command}
    (h : commandOf host program args = some command) :
    isExecutable command.path = true ∧ program.dropWhile isPrefixChar = command.path := by
  simp only [commandOf] at h
  by_cases hexec : isExecutable (program.dropWhile isPrefixChar) = true
  · rw [if_neg (by simp [hexec])] at h
    by_cases hname : '@' ∈ program.takeWhile isPrefixChar
    · rw [if_pos hname] at h
      cases args with
      | nil => cases h
      | cons name args =>
        obtain rfl := Option.some.inj h
        exact ⟨hexec, rfl⟩
    · rw [if_neg hname] at h
      obtain rfl := Option.some.inj h
      exact ⟨hexec, rfl⟩
  · rw [if_pos (by simpa using hexec)] at h
    cases h

theorem isProgram_of_commandOf {host : Host} {program : Text} {args argv : List Text}
    (h : commandOf host program args = some ⟨program, argv⟩) : IsProgram program := by
  obtain ⟨hexec, hdrop⟩ := path_of_commandOf h
  have happend := program.takeWhile_append_dropWhile (p := isPrefixChar)
  rw [hdrop] at happend
  exact ⟨hexec, takeWhile_isPrefixChar_iff.1 (List.append_left_eq_self.mp happend)⟩

theorem execStart_quoted (host : Host) {program : Text} {args : List Text}
    (h : ∀ w ∈ program :: args, ∀ c ∈ w, isLineEnd c = false) {e : Char} (he : isLineEnd e = true)
    (rest : Text) :
    execStart host (key ++ [' '].intercalate ((program :: args).map quoted) ++ e :: rest) =
      commandOf host program args := by
  have hread : QuotedWords.read rules ([' '].intercalate ((program :: args).map quoted)) =
      some ((program :: args).map (·.flatMap unexpanded)) := by
    refine read_intercalate rfl ?_
    rw [List.forall₂_map_left_iff, List.forall₂_map_right_iff, List.forall₂_same]
    exact fun w _ => isWord_quoted w
  rw [execStart, passes_key.append (passes_intercalate h), logicalLine_of_isLineEnd he,
    List.append_nil, List.dropPrefix?_append_of_beq _ (BEq.rfl), Option.bind_some, hread,
    Option.bind_some, List.map_cons]
  simp [Function.comp_def, expand_unexpanded]

theorem execStart_lineEnd (host : Host) {words : List Text}
    (h : ∃ w ∈ words, ∃ c ∈ w, isLineEnd c = true) (rest : Text) :
    execStart host (key ++ [' '].intercalate (words.map quoted) ++ rest) = none := by
  rw [execStart, List.append_assoc, passes_key, List.dropPrefix?_append_of_beq _ (BEq.rfl),
    Option.bind_some, QuotedWords.read, Reader.start, read_logicalLine_of_lineEnd h,
    Option.bind_none]

/-- A command in double quotes is read back on every host if and only if no word ends the line, its
program is one and its arguments are literals. -/
theorem forall_execStart_iff (program : Text) (args : List Text) {e : Char}
    (he : isLineEnd e = true) (rest : Text) :
    (∀ host, execStart host (key ++ [' '].intercalate ((program :: args).map quoted) ++ e :: rest) =
        some ⟨program, program :: args⟩) ↔
      (∀ w ∈ program :: args, ∀ c ∈ w, isLineEnd c = false) ∧ IsProgram program ∧
        ∀ a ∈ args, Literal a := by
  constructor
  · intro h
    have hclean : ∀ w ∈ program :: args, ∀ c ∈ w, isLineEnd c = false := by
      by_contra hnot
      push Not at hnot
      obtain ⟨w, hw, c, hc, hend⟩ := hnot
      have hnone := h .bare
      rw [execStart_lineEnd .bare ⟨w, hw, c, hc, by simpa using hend⟩] at hnone
      cases hnone
    have hprogram : IsProgram program := by
      have hbare := h .bare
      rw [execStart_quoted .bare hclean he] at hbare
      exact isProgram_of_commandOf hbare
    refine ⟨hclean, hprogram, (forall_argument_eq_iff args).1 fun host => ?_⟩
    have hargs := h host
    rw [execStart_quoted host hclean he, commandOf_of_isProgram host hprogram] at hargs
    exact (List.cons.inj (Command.mk.inj (Option.some.inj hargs)).2).2
  · rintro ⟨hclean, hprogram, hargs⟩ host
    rw [execStart_quoted host hclean he, commandOf_of_isProgram host hprogram,
      (forall_argument_eq_iff args).2 hargs]

end SystemdUnit
