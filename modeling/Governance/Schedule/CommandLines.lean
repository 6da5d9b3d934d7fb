import Governance.Config.Resolve
import Governance.Lib.ShellWords
import Governance.Lib.SystemdUnit
import Governance.Lib.XmlText

/-!
# Command lines for other programs

`templates/mod.rs`, `cli/invoke.rs` and `schedule/mod.rs`: the command lines that `configure` writes
for systemd, for launchd and for the shell that runs a credential helper, and the quoting of the
shell files. Each is read back by the rules of its reader. What the templates quote comes back but
for the variables of systemd and for the characters that end a line of a unit or have no place in a
property list. The helpers are not quoted, so they come back only where nothing needs it.
-/

namespace Governance

open Utf8Text QuotedWords

namespace Templates

/-- `str::replace`, of a character. -/
def replace (c : Char) (t value : Text) : Text := value.flatMap fun d => if d = c then t else [d]

/-- `systemd_quote`. -/
def systemdQuote (value : Text) : Text :=
  '"' :: replace '%' "%%".toList (replace '"' "\\\"".toList (replace '\\' "\\\\".toList value)) ++
    ['"']

/-- `xml_escape`. -/
def xmlEscape (value : Text) : Text :=
  replace '\'' "&apos;".toList (replace '"' "&quot;".toList (replace '>' "&gt;".toList
    (replace '<' "&lt;".toList (replace '&' "&amp;".toList value))))

/-- `sh_quote`. -/
def shQuote (value : Text) : Text := '\'' :: replace '\'' "'\\''".toList value ++ ['\'']

/-- `fish_quote`. -/
def fishQuote (value : Text) : Text :=
  '\'' :: replace '\'' "\\'".toList (replace '\\' "\\\\".toList value) ++ ['\'']

/-- The `ExecStart=` line of `systemd_service.jinja`. -/
def execStartLine (argv : List Text) : Text :=
  "ExecStart=".toList ++ [' '].intercalate (argv.map systemdQuote)

/-- The array of `launchd_plist.jinja`. -/
def programArguments (argv : List Text) : Text :=
  "<array>".toList ++
    ((argv.flatMap fun arg => "\n    <string>".toList ++ (xmlEscape arg ++ "</string>".toList)) ++
      "\n  </array>".toList)

end Templates

namespace Invoke

/-- `otel::binary_path`. -/
def binaryPath (currentExe : Option Text) : Text := currentExe.getD "governance-auth".toList

/-- `COPILOT_PUSH`. -/
def copilotPush : List Text := ["copilot".toList, "push".toList]

/-- `OTEL_HEADERS_TAIL`. -/
def otelHeadersTail : Text := " otel headers".toList

/-- `token_args`. -/
def tokenArgs (issuer clientId : Text) : List Text :=
  ["--issuer".toList, issuer, "--client-id".toList, clientId, "token".toList]

/-- `token_command`. -/
def tokenCommand (currentExe : Option Text) (issuer clientId : Text) : Text :=
  binaryPath currentExe ++ ' ' :: [' '].intercalate (tokenArgs issuer clientId)

/-- `otel_headers_command`. -/
def otelHeadersCommand (currentExe : Option Text) (issuer clientId : Text) : Text :=
  binaryPath currentExe ++ (" --issuer ".toList ++ (issuer ++ (" --client-id ".toList ++
    (clientId ++ otelHeadersTail))))

/-- The arguments that the helper of the headers is meant to run with. -/
def otelHeadersArgs (issuer clientId : Text) : List Text :=
  ["--issuer".toList, issuer, "--client-id".toList, clientId, "otel".toList, "headers".toList]

end Invoke

namespace Schedule

open Config Invoke

/-- `Invocation`. -/
structure Invocation where
  program : Text
  args : List Text

/-- `argv` of `units`. -/
def Invocation.argv (invocation : Invocation) : List Text := invocation.program :: invocation.args

/-- `resolve_spool_path`: without a configured path, the file in the state directory, if that can be
located. -/
def resolveSpoolPath (stateDir : Option Text) (config : OauthConfig) : Option Text :=
  match config.copilotSpoolPath with
  | some path => some path.toList
  | none => stateDir.map (· ++ "/copilot-otel.jsonl".toList)

/-- The arguments of the drain. -/
def drainArgs (issuer clientId endpoint spool : Text) : List Text :=
  ["--issuer".toList, issuer, "--client-id".toList, clientId, "--otel-endpoint".toList, endpoint,
    "--copilot-spool-path".toList, spool] ++ copilotPush

/-- `Invocation::resolve`, which fails where no spool path is resolved. -/
def Invocation.resolve (currentExe stateDir : Option Text) (config : OauthConfig) :
    Option (Option Invocation) :=
  if config.profile ≠ .manual then some none
  else match config.otelEndpoint with
  | none => some none
  | some endpoint =>
    (resolveSpoolPath stateDir config).map fun spool =>
      some ⟨binaryPath currentExe,
        drainArgs config.issuer.toList config.clientId.toList endpoint.toList spool⟩

end Schedule

/-! ## Quoting -/

namespace Templates

theorem replace_eq_flatMap (c : Char) (t value : Text) :
    replace c t value = value.flatMap fun d => if d = c then t else [d] := rfl

theorem replace_flatMap (c : Char) (t value : Text) (f : Char → Text) :
    replace c t (value.flatMap f) = value.flatMap fun d => replace c t (f d) :=
  List.flatMap_assoc

theorem systemdQuote_eq (value : Text) : systemdQuote value = SystemdUnit.quoted value := by
  have hspell : replace '%' "%%".toList (replace '"' "\\\"".toList
      (replace '\\' "\\\\".toList value)) = value.flatMap SystemdUnit.spell := by
    rw [replace_eq_flatMap '\\', replace_flatMap, replace_flatMap]
    refine List.flatMap_congr fun d _ => ?_
    rw [SystemdUnit.spell]
    split_ifs with hslash hmark hpercent
    all_goals simp [replace, *]
  rw [systemdQuote, hspell, SystemdUnit.quoted]

theorem replace_of_ne {c d : Char} (h : d ≠ c) (t : Text) : replace c t [d] = [d] := by
  rw [replace, List.flatMap_singleton, if_neg h]

theorem xmlEscape_eq (value : Text) : xmlEscape value = value.flatMap XmlText.spell := by
  rw [xmlEscape, replace_eq_flatMap '&', replace_flatMap, replace_flatMap, replace_flatMap,
    replace_flatMap]
  refine List.flatMap_congr fun d _ => ?_
  unfold XmlText.spell
  split_ifs with hamp hlt hgt hquot hapos
  · rfl
  · subst hlt
    rfl
  · subst hgt
    rfl
  · subst hquot
    rfl
  · subst hapos
    rfl
  · rw [replace_of_ne hlt, replace_of_ne hgt, replace_of_ne hquot, replace_of_ne hapos]

theorem ofMark_single : Quote.ofMark '\'' = some .single := rfl

theorem shQuote_read (value : Text) : read ShellWords.posix (shQuote value) = some [value] := by
  have hword := ShellWords.spells_posix_single.word ofMark_single value
  rw [List.flatMap_singleton'] at hword
  exact hword.read_eq

theorem fishQuote_read (value : Text) : read ShellWords.fish (fishQuote value) = some [value] := by
  have hspell : replace '\'' "\\'".toList (replace '\\' "\\\\".toList value) =
      value.flatMap ShellWords.fishSpell := by
    rw [replace_eq_flatMap '\\', replace_flatMap]
    refine List.flatMap_congr fun d _ => ?_
    rw [ShellWords.fishSpell]
    split_ifs
    all_goals simp [replace, *]
  have hword := ShellWords.spells_fish_single.word ofMark_single value
  rw [List.flatMap_singleton'] at hword
  rw [fishQuote, hspell]
  exact hword.read_eq

theorem execStartLine_eq (argv : List Text) :
    execStartLine argv = SystemdUnit.key ++ [' '].intercalate (argv.map SystemdUnit.quoted) := by
  have hquoted : argv.map systemdQuote = argv.map SystemdUnit.quoted :=
    List.map_congr_left fun arg _ => systemdQuote_eq arg
  unfold execStartLine SystemdUnit.key
  rw [hquoted]

theorem programArguments_eq (argv : List Text) :
    programArguments argv = XmlText.arrayText argv := by
  have hopen : "<array>".toList = XmlText.tagText XmlText.arrayName := by decide
  have hclose : "\n  </array>".toList =
      XmlText.indent 2 ++ XmlText.tagText ('/' :: XmlText.arrayName) := by decide
  have hitem : (fun arg => "\n    <string>".toList ++ (xmlEscape arg ++ "</string>".toList)) =
      XmlText.itemText := by
    funext arg
    have hstart : "\n    <string>".toList =
        XmlText.indent 4 ++ XmlText.tagText XmlText.stringName := by decide
    have hend : "</string>".toList = XmlText.tagText ('/' :: XmlText.stringName) := by decide
    rw [hstart, hend, xmlEscape_eq, XmlText.itemText, List.append_assoc]
  unfold programArguments
  rw [hopen, hclose, hitem, XmlText.arrayText]

end Templates

/-! ## Helpers -/

namespace Invoke

theorem tokenCommand_eq (currentExe : Option Text) (issuer clientId : Text) :
    tokenCommand currentExe issuer clientId =
      [' '].intercalate (binaryPath currentExe :: tokenArgs issuer clientId) := by
  conv_rhs => rw [tokenArgs, List.intercalate_cons_cons]
  rw [List.append_assoc, List.singleton_append]
  rfl

theorem otelHeadersCommand_eq (currentExe : Option Text) (issuer clientId : Text) :
    otelHeadersCommand currentExe issuer clientId =
      [' '].intercalate (binaryPath currentExe :: otelHeadersArgs issuer clientId) := by
  have hissuer : " --issuer ".toList = [' '] ++ ("--issuer".toList ++ [' ']) := by decide
  have hclient : " --client-id ".toList = [' '] ++ ("--client-id".toList ++ [' ']) := by decide
  have htail : otelHeadersTail = [' '] ++ ("otel".toList ++ ([' '] ++ "headers".toList)) := by
    decide
  unfold otelHeadersCommand otelHeadersArgs
  rw [hissuer, hclient, htail]
  simp only [List.intercalate_cons_cons, List.intercalate_singleton, List.append_assoc]

/-- The words of the code in the command lines. -/
def codeWords : List String :=
  ["--issuer", "--client-id", "token", "otel", "headers", "--otel-endpoint",
    "--copilot-spool-path", "copilot", "push"]

theorem letters_literal {l : List Char} (hne : l ≠ [])
    (hletters : l.all (fun c => c.isAlphanum || c == '-') = true) :
    (String.ofList l).toList ≠ [] ∧
      ∀ c ∈ (String.ofList l).toList, c.isAlphanum = true ∨ c = '-' := by
  rw [String.toList_ofList]
  refine ⟨hne, fun c hc => ?_⟩
  have hletter := List.all_eq_true.mp hletters c hc
  rwa [Bool.or_eq_true, beq_iff_eq] at hletter

theorem codeWords_letters : ∀ word ∈ codeWords,
    word.toList ≠ [] ∧ ∀ c ∈ word.toList, c.isAlphanum = true ∨ c = '-' := by
  unfold codeWords
  repeat refine List.forall_mem_cons.mpr ⟨letters_literal (List.cons_ne_nil _ _) rfl, ?_⟩
  exact List.forall_mem_nil _

theorem plain_codeWords : ∀ word ∈ codeWords, Plain ShellWords.posix word.toList := fun word hw =>
  ShellWords.plain_posix (codeWords_letters word hw).1 (codeWords_letters word hw).2

theorem token_iff (currentExe : Option Text) (issuer clientId : Text) :
    read ShellWords.posix (tokenCommand currentExe issuer clientId) =
        some (binaryPath currentExe :: tokenArgs issuer clientId) ↔
      ∀ value ∈ [binaryPath currentExe, issuer, clientId], Plain ShellWords.posix value := by
  have hissuer := plain_codeWords "--issuer" (by simp [codeWords])
  have hclient := plain_codeWords "--client-id" (by simp [codeWords])
  have htoken := plain_codeWords "token" (by simp [codeWords])
  rw [tokenCommand_eq, ShellWords.posix_read_intercalate_iff]
  simp only [tokenArgs, List.forall_mem_cons, hissuer, hclient, htoken, true_and]

theorem otelHeaders_iff (currentExe : Option Text) (issuer clientId : Text) :
    read ShellWords.posix (otelHeadersCommand currentExe issuer clientId) =
        some (binaryPath currentExe :: otelHeadersArgs issuer clientId) ↔
      ∀ value ∈ [binaryPath currentExe, issuer, clientId], Plain ShellWords.posix value := by
  have hissuer := plain_codeWords "--issuer" (by simp [codeWords])
  have hclient := plain_codeWords "--client-id" (by simp [codeWords])
  have hotel := plain_codeWords "otel" (by simp [codeWords])
  have hheaders := plain_codeWords "headers" (by simp [codeWords])
  rw [otelHeadersCommand_eq, ShellWords.posix_read_intercalate_iff]
  simp only [otelHeadersArgs, List.forall_mem_cons, hissuer, hclient, hotel, hheaders, true_and]

end Invoke

/-! ## The drain -/

namespace Schedule

open Config Invoke Templates

/-- The value ends no line and has only characters of XML. -/
def IsLine (value : Text) : Prop :=
  ∀ c ∈ value, XmlText.isXmlChar c = true ∧ SystemdUnit.isLineEnd c = false

instance (value : Text) : Decidable (IsLine value) := inferInstanceAs (Decidable (∀ c ∈ value, _))

theorem literal_codeWords : ∀ word ∈ codeWords, SystemdUnit.Literal word.toList := by
  intro word hw
  refine SystemdUnit.literal_of_notMem fun hmem => ?_
  rcases (codeWords_letters word hw).2 _ hmem with halpha | hhyphen
  · exact absurd halpha (by decide)
  · exact absurd hhyphen (by decide)

theorem isLine_of_letters {value : Text} (h : ∀ c ∈ value, c.isAlphanum = true ∨ c = '-') :
    IsLine value := by
  intro c hc
  rcases h c hc with halpha | rfl
  · have hcode : 48 ≤ c.toNat ∧ c.toNat ≤ 122 := by
      simp only [Char.isAlphanum, Char.isAlpha, Char.isUpper, Char.isLower, Char.isDigit,
        Bool.or_eq_true, Bool.and_eq_true, decide_eq_true_eq, ge_iff_le,
        UInt32.le_iff_toNat_le, Char.reduceVal, UInt32.reduceToNat] at halpha
      show 48 ≤ c.val.toNat ∧ c.val.toNat ≤ 122
      omega
    have hend : ∀ d : Char, d.toNat < 48 → c ≠ d := by
      rintro d hd rfl
      omega
    refine ⟨?_, ?_⟩
    · simp only [XmlText.isXmlChar, decide_eq_true_eq]
      omega
    · simp only [SystemdUnit.isLineEnd, decide_eq_false_iff_not, not_or]
      exact ⟨hend _ (by decide), hend _ (by decide), hend _ (by decide)⟩
  · exact ⟨by decide, by decide⟩

theorem isLine_codeWords : ∀ word ∈ codeWords, IsLine word.toList := fun word hw =>
  isLine_of_letters (codeWords_letters word hw).2

/-- What holds of the words of the code holds of the drain's arguments if it holds of the values. -/
theorem forall_drainArgs_iff {P : Text → Prop} (hwords : ∀ word ∈ codeWords, P word.toList)
    (issuer clientId endpoint spool : Text) :
    (∀ arg ∈ drainArgs issuer clientId endpoint spool, P arg) ↔
      ∀ value ∈ [issuer, clientId, endpoint, spool], P value := by
  simp only [codeWords, List.forall_mem_cons] at hwords
  obtain ⟨hissuer, hclient, -, -, -, hendpoint, hspool, hcopilot, hpush, -⟩ := hwords
  simp only [drainArgs, copilotPush, List.cons_append, List.nil_append, List.forall_mem_cons,
    hissuer, hclient, hendpoint, hspool, hcopilot, hpush, true_and]

/-- A drain is run as its invocation if and only if no value ends a line or has no place in XML, the
program is one and no other value has a variable of systemd in it. -/
theorem drain_iff (program issuer clientId endpoint spool : Text) :
    let argv := program :: drainArgs issuer clientId endpoint spool
    ((∀ host rest, SystemdUnit.execStart host (execStartLine argv ++ '\n' :: rest) =
        some ⟨program, argv⟩) ∧ XmlText.readArray (programArguments argv) = some argv) ↔
      SystemdUnit.IsProgram program ∧
        (∀ value ∈ [issuer, clientId, endpoint, spool], SystemdUnit.Literal value) ∧
        ∀ value ∈ [program, issuer, clientId, endpoint, spool], IsLine value := by
  intro argv
  have hunit : (∀ host rest, SystemdUnit.execStart host (execStartLine argv ++ '\n' :: rest) =
      some ⟨program, argv⟩) ↔ (∀ w ∈ argv, ∀ c ∈ w, SystemdUnit.isLineEnd c = false) ∧
        SystemdUnit.IsProgram program ∧
        ∀ a ∈ drainArgs issuer clientId endpoint spool, SystemdUnit.Literal a := by
    rw [execStartLine_eq]
    constructor
    · intro h
      exact (SystemdUnit.forall_execStart_iff program _ rfl []).1 fun host => h host []
    · intro h host rest
      exact (SystemdUnit.forall_execStart_iff program _ rfl rest).2 h host
  -- a carriage return ends a line
  have hlines : (∀ w ∈ argv, ∀ c ∈ w, SystemdUnit.isLineEnd c = false) ∧
      (∀ w ∈ argv, ∀ c ∈ w, XmlText.isXmlChar c = true ∧ c ≠ '\r') ↔ ∀ w ∈ argv, IsLine w := by
    constructor
    · rintro ⟨hend, hxml⟩ w hw c hc
      exact ⟨(hxml w hw c hc).1, hend w hw c hc⟩
    · intro h
      refine ⟨fun w hw c hc => (h w hw c hc).2, fun w hw c hc => ⟨(h w hw c hc).1, ?_⟩⟩
      rintro rfl
      exact absurd (h w hw _ hc).2 (by decide)
  have hliteral := forall_drainArgs_iff literal_codeWords issuer clientId endpoint spool
  have hvalues : (∀ w ∈ argv, IsLine w) ↔
      ∀ value ∈ [program, issuer, clientId, endpoint, spool], IsLine value := by
    rw [List.forall_mem_cons, forall_drainArgs_iff isLine_codeWords, ← List.forall_mem_cons]
  rw [hunit, programArguments_eq, XmlText.readArray_arrayText_iff, ← hliteral, ← hvalues, ← hlines]
  tauto

theorem resolve_eq_iff {currentExe stateDir : Option Text} {config : OauthConfig}
    {invocation : Invocation} :
    Invocation.resolve currentExe stateDir config = some (some invocation) ↔
      config.profile = .manual ∧ ∃ endpoint spool, config.otelEndpoint = some endpoint ∧
        resolveSpoolPath stateDir config = some spool ∧
        invocation = ⟨binaryPath currentExe,
          drainArgs config.issuer.toList config.clientId.toList endpoint.toList spool⟩ := by
  rw [Invocation.resolve]
  by_cases hprofile : config.profile = .manual
  · cases hendpoint : config.otelEndpoint with
    | none => simp [hprofile]
    | some endpoint => simp [hprofile, eq_comm]
  · simp [hprofile]

/-! ## What is read back -/

/-- Every command line is read back as it is meant. -/
structure ReadBack (currentExe stateDir : Option Text) (config : OauthConfig) : Prop where
  unit : ∀ invocation,
    Invocation.resolve currentExe stateDir config = some (some invocation) → ∀ host rest,
      SystemdUnit.execStart host (execStartLine invocation.argv ++ '\n' :: rest) =
        some ⟨invocation.program, invocation.argv⟩
  plist : ∀ invocation,
    Invocation.resolve currentExe stateDir config = some (some invocation) →
      XmlText.readArray (programArguments invocation.argv) = some invocation.argv
  token : read ShellWords.posix
      (tokenCommand currentExe config.issuer.toList config.clientId.toList) =
    some (binaryPath currentExe :: tokenArgs config.issuer.toList config.clientId.toList)
  otelHeaders : read ShellWords.posix
      (otelHeadersCommand currentExe config.issuer.toList config.clientId.toList) =
    some (binaryPath currentExe :: otelHeadersArgs config.issuer.toList config.clientId.toList)
  sh : ∀ value, read ShellWords.posix (shQuote value) = some [value]
  fish : ∀ value, read ShellWords.fish (fishQuote value) = some [value]

/-- No value needs a quote in a shell, and where a drain is scheduled, none of them ends a line, has
a character that is none of XML or, as an argument, a variable of systemd. -/
structure Harmless (currentExe stateDir : Option Text) (config : OauthConfig) : Prop where
  helpers : ∀ value ∈ [binaryPath currentExe, config.issuer.toList, config.clientId.toList],
    Plain ShellWords.posix value
  drain : config.profile = .manual → ∀ endpoint spool, config.otelEndpoint = some endpoint →
    resolveSpoolPath stateDir config = some spool →
      SystemdUnit.IsProgram (binaryPath currentExe) ∧
        (∀ value ∈ [config.issuer.toList, config.clientId.toList, endpoint.toList, spool],
          SystemdUnit.Literal value) ∧
        ∀ value ∈ [binaryPath currentExe, config.issuer.toList, config.clientId.toList,
          endpoint.toList, spool], IsLine value

/-- The command lines are read back as they are meant if and only if the values are harmless. -/
theorem readBack_iff (currentExe stateDir : Option Text) (config : OauthConfig) :
    ReadBack currentExe stateDir config ↔ Harmless currentExe stateDir config := by
  constructor
  · intro h
    refine ⟨(token_iff currentExe _ _).1 h.token, ?_⟩
    intro hprofile endpoint spool hendpoint hspool
    have hresolve : Invocation.resolve currentExe stateDir config = some (some
        ⟨binaryPath currentExe,
          drainArgs config.issuer.toList config.clientId.toList endpoint.toList spool⟩) :=
      resolve_eq_iff.2 ⟨hprofile, endpoint, spool, hendpoint, hspool, rfl⟩
    have hunit := h.unit _ hresolve
    have hplist := h.plist _ hresolve
    exact (drain_iff (binaryPath currentExe) config.issuer.toList config.clientId.toList
      endpoint.toList spool).1 ⟨hunit, hplist⟩
  · intro h
    have hdrain : ∀ invocation,
        Invocation.resolve currentExe stateDir config = some (some invocation) →
        (∀ host rest, SystemdUnit.execStart host
          (execStartLine invocation.argv ++ '\n' :: rest) =
            some ⟨invocation.program, invocation.argv⟩) ∧
          XmlText.readArray (programArguments invocation.argv) = some invocation.argv := by
      intro invocation hresolve
      obtain ⟨hprofile, endpoint, spool, hendpoint, hspool, rfl⟩ := resolve_eq_iff.1 hresolve
      exact (drain_iff (binaryPath currentExe) config.issuer.toList config.clientId.toList
        endpoint.toList spool).2 (h.drain hprofile endpoint spool hendpoint hspool)
    exact
      { unit := fun invocation hresolve => (hdrain invocation hresolve).1
        plist := fun invocation hresolve => (hdrain invocation hresolve).2
        token := (token_iff currentExe _ _).2 h.helpers
        otelHeaders := (otelHeaders_iff currentExe _ _).2 h.helpers
        sh := shQuote_read
        fish := fishQuote_read }

/-- A client with a blank in its name, and a spool with two dollar signs in its path. -/
def misreadConfig : OauthConfig where
  issuer := "https://auth.example.com"
  clientId := "my client"
  scopes := defaultScopes
  audience := none
  otelEndpoint := some "https://otel.example.com"
  otelToken := none
  gatewayUrl := none
  profile := .manual
  profileExplicit := none
  copilotSpoolPath := some "/state/a$$b.jsonl"
  otelHeadersDebounceMs := defaultOtelHeadersDebounceMs
  openBrowser := true
  callbackPort := none
  callbackBind := defaultBind
  tokenExchange := none
  lastNoClaude := false
  lastNoCodex := false
  lastNoVscode := false
  lastCodexTelemetryOnly := false

/-- The shell runs the helper with one argument more than there are, and systemd runs the drain on
another file. -/
theorem misread_command_lines :
    let exe := "/usr/bin/governance-auth".toList
    read ShellWords.posix (tokenCommand (some exe) misreadConfig.issuer.toList
        misreadConfig.clientId.toList) =
      some [exe, "--issuer".toList, "https://auth.example.com".toList, "--client-id".toList,
        "my".toList, "client".toList, "token".toList] ∧
    (∀ host, SystemdUnit.argument host "/state/a$$b.jsonl".toList =
      ["/state/a$b.jsonl".toList]) ∧
    ¬ ReadBack (some exe) none misreadConfig := by
  intro exe
  refine ⟨?_, fun host => rfl, fun h => ?_⟩
  · have hplain : ∀ word ∈ ["/usr/bin/governance-auth", "--issuer", "https://auth.example.com",
        "--client-id", "my", "client", "token"], Plain ShellWords.posix word.toList := by
      repeat refine List.forall_mem_cons.mpr ⟨ShellWords.plain_literal (List.cons_ne_nil _ _) rfl, ?_⟩
      exact List.forall_mem_nil _
    have hread := (ShellWords.posix_read_intercalate_iff _).2
      (List.forall_mem_map.mpr hplain)
    exact hread
  · have hclient := (token_iff (some exe) _ _).1 h.token "my client".toList
      (by simp [misreadConfig])
    exact absurd (hclient.2.1 ' ' (by simp)).2.1 (by decide)

end Schedule

end Governance
