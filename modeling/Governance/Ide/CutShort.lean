import Governance.Ide.Stream

/-!
# A response that is cut short

What `pumpStream` reports, in terms of the payloads: the contents in their order, then the tool calls
that the fragments of each index make up. A response that is cut short reports the calls of the
fragments that have come so far. So what is reported for it is a part of the whole only under a
condition on the fragments (`cut_short_iff`).
-/

namespace Governance

open Utf8Text Sse JsonParse Grouping

namespace ChatStream

open Js

variable {N : Type} (env : JsEnv N)

/-! ## What a payload says -/

/-- What one element of `tool_calls` says. -/
structure Fragment (N : Type) where
  index : Js N
  id : Option (Js N)
  name : Option (Js N)
  args : JsString

def fragmentOf : Js N → Option (Fragment N)
  | .null => none
  | call => (appended env (optional (call.get "function") "arguments")).map fun args =>
    { index := coalesce (call.get "index") (.num env.zero)
      id := whenTruthy env (call.get "id")
      name := whenTruthy env (optional (call.get "function") "name")
      args := args }

/-- The delta of choice 0, where there is one; the outer `none` is the JSON value `null`. -/
def deltaOf (payload : JsString) : Option (Option (Js N)) :=
  match parse env.ofNumeral payload with
  | none => some none
  | some chunk => deltaOfChunk env chunk

/-- The content delta of choice 0. -/
def contentOf (payload : JsString) : JsString :=
  match (deltaOf env payload).join.bind fun delta => delta.get "content" with
  | some (.str s) => s
  | _ => []

/-- The elements of `tool_calls`; `none` where they cannot be told. -/
def callItems (payload : JsString) : Option (List (Js N)) :=
  (deltaOf env payload).bind fun delta =>
    match delta with
    | none => some []
    | some delta => iterate (delta.get "tool_calls")

def fragmentsOf (payload : JsString) : List (Fragment N) :=
  ((callItems env payload).getD []).filterMap (fragmentOf env)

/-- JSON that is not of the shape of a chunk: `null`, `tool_calls` without elements, or an element
that cannot be read. -/
def misshapen (payload : JsString) : Bool :=
  match callItems env payload with
  | none => true
  | some calls => calls.any fun call => (fragmentOf env call).isNone

/-! ## What the fragments make up -/

/-- The call that fragments of one index make up: the last id and the last name that are given, and
all arguments. -/
def assemble (fragments : List (Fragment N)) : PendingCall N :=
  { id := (fragments.filterMap Fragment.id).getLast?.getD (.str [])
    name := (fragments.filterMap Fragment.name).getLast?.getD (.str [])
    args := fragments.flatMap Fragment.args }

/-- One call for each index with a name whose arguments are JSON. -/
def callsOf (fragments : List (Fragment N)) : List (Part N) :=
  (classes (sameValueZero env) Fragment.index fragments).filterMap fun c =>
    reportCall env (assemble c.2)

/-- What a fragment changes in a pending call. -/
def Fragment.extend (f : Fragment N) (entry : PendingCall N) : PendingCall N :=
  { id := f.id.getD entry.id
    name := f.name.getD entry.name
    args := entry.args ++ f.args }

def addFragment (pending : Pending N) (f : Fragment N) : Pending N :=
  addTo (sameValueZero env) f.index .empty f.extend pending

theorem foldl_extend (fragments : List (Fragment N)) (entry : PendingCall N) :
    fragments.foldl (fun entry f => f.extend entry) entry =
      { id := (fragments.filterMap Fragment.id).getLast?.getD entry.id
        name := (fragments.filterMap Fragment.name).getLast?.getD entry.name
        args := entry.args ++ fragments.flatMap Fragment.args } := by
  have hlast (o : Option (Js N)) (l : List (Js N)) (v : Js N) :
      (o.toList ++ l).getLast?.getD v = l.getLast?.getD (o.getD v) := by
    cases o with
    | none => rfl
    | some w => rw [Option.toList_some, List.singleton_append, List.getLast?_cons]; rfl
  induction fragments generalizing entry with
  | nil => simp
  | cons f fragments ih =>
    have hcons {o : Fragment N → Option (Js N)} :
        (f :: fragments).filterMap o = (o f).toList ++ fragments.filterMap o := by
      cases ho : o f <;> simp [ho]
    rw [List.foldl_cons, ih, hcons, hcons, hlast, hlast, List.flatMap_cons, ← List.append_assoc]
    rfl

/-- `flush` reports the calls of the fragments. -/
theorem flush_foldl (fragments : List (Fragment N)) :
    flush env (fragments.foldl (addFragment env) []) = callsOf env fragments := by
  have hgroups : fragments.foldl (addFragment env) [] =
      (classes (sameValueZero env) Fragment.index fragments).map fun c =>
        (c.1, c.2.foldl (fun entry f => f.extend entry) .empty) := foldl_addTo fragments
  have hassemble (c : Js N × List (Fragment N)) :
      c.2.foldl (fun entry f => f.extend entry) .empty = assemble c.2 := foldl_extend c.2 .empty
  rw [flush, hgroups, List.filterMap_map, callsOf]
  refine List.filterMap_congr fun c _ => ?_
  rw [Function.comp_apply, hassemble]

/-! ## One payload -/

theorem addCall_eq (pending : Pending N) (call : Js N) :
    addCall env pending call = (fragmentOf env call).map (addFragment env pending) := by
  cases call with
  | null => rfl
  | _ =>
    simp only [addCall, fragmentOf, Option.map_map]
    rfl

theorem foldlM_addCall (calls : List (Js N)) (pending : Pending N) :
    calls.foldlM (addCall env) pending =
      if calls.any fun call => (fragmentOf env call).isNone then none
      else some ((calls.filterMap (fragmentOf env)).foldl (addFragment env) pending) := by
  induction calls generalizing pending with
  | nil => rfl
  | cons call calls ih =>
    rw [List.foldlM_cons, addCall_eq, List.any_cons]
    cases hcall : fragmentOf env call with
    | none => rfl
    | some f =>
      rw [List.filterMap_cons_some hcall, List.foldl_cons]
      exact ih (addFragment env pending f)

/-- The text part of a content delta. -/
def textParts (content : JsString) : List (Part N) :=
  if content = [] then [] else [.text content]

theorem contentParts_eq (delta : Js N) :
    contentParts delta =
      textParts (match delta.get "content" with
        | some (.str s) => s
        | _ => []) := by
  unfold contentParts
  rcases delta.get "content" with _ | ⟨_ | _ | _ | s | _ | _⟩ <;> rfl

/-- `handlePayload` in terms of what a payload says. -/
theorem handlePayload_eq (pending : Pending N) (payload : JsString) :
    handlePayload env pending payload =
      (textParts (contentOf env payload),
        if misshapen env payload then none
        else some ((fragmentsOf env payload).foldl (addFragment env) pending)) := by
  have hdelta : handlePayload env pending payload =
      (deltaOf env payload).elim ([], none) fun told => told.elim ([], some pending) fun delta =>
        (contentParts delta, (iterate (delta.get "tool_calls")).elim none fun calls =>
          calls.foldlM (addCall env) pending) := by
    rw [handlePayload, deltaOf]
    cases parse env.ofNumeral payload with
    | none => rfl
    | some chunk =>
      dsimp only
      rcases deltaOfChunk env chunk with _ | _ | delta
      · rfl
      · rfl
      · dsimp only [Option.elim_some]
        cases iterate (delta.get "tool_calls") <;> rfl
  rw [hdelta]
  unfold misshapen fragmentsOf callItems contentOf
  rcases deltaOf env payload with _ | _ | delta
  · rfl
  · rfl
  · simp only [Option.join_some, Option.bind_some, Option.elim_some, contentParts_eq]
    cases iterate (delta.get "tool_calls") with
    | none => rfl
    | some calls =>
      simp only [foldlM_addCall]
      rfl

/-! ## All payloads -/

/-- Nothing is read behind such a payload. -/
def isStop (payload : JsString) : Bool := payload = done || misshapen env payload

/-- The payloads before the stop. -/
def body (payloads : List JsString) : List JsString := payloads.takeWhile fun p => !isStop env p

def stop (payloads : List JsString) : Option JsString := payloads.find? (isStop env)

/-- The stop is a misshapen payload. -/
def thrown (payloads : List JsString) : Bool := (stop env payloads).any fun p => p ≠ done

/-- The content deltas up to the stop; a misshapen payload can still have one. -/
def contentsIn (payloads : List JsString) : List JsString :=
  ((body env payloads ++ (stop env payloads).toList).map (contentOf env)).filter (· ≠ [])

def fragmentsIn (payloads : List JsString) : List (Fragment N) :=
  (body env payloads).flatMap (fragmentsOf env)

/-- The calls of a stream that comes to its end. -/
def finalCalls (payloads : List JsString) : List (Part N) :=
  if thrown env payloads then [] else callsOf env (fragmentsIn env payloads)

theorem contentOf_done : contentOf env done = [] := by
  have hlex : lex done = none := by decide +kernel
  rw [contentOf, deltaOf, parse, hlex]
  rfl

section Cons

variable {env} {payload : JsString} (payloads : List JsString)

theorem contentsIn_stop (h : isStop env payload = true) :
    contentsIn env (payload :: payloads) = [contentOf env payload].filter (· ≠ []) := by
  simp [contentsIn, body, stop, h]

theorem contentsIn_cons (h : isStop env payload = false) :
    contentsIn env (payload :: payloads) =
      [contentOf env payload].filter (· ≠ []) ++ contentsIn env payloads := by
  have hbody : body env (payload :: payloads) = payload :: body env payloads := by simp [body, h]
  have hstop : stop env (payload :: payloads) = stop env payloads := by simp [stop, h]
  rw [contentsIn, hbody, hstop, List.cons_append, List.map_cons, ← List.singleton_append,
    List.filter_append]
  rfl

theorem fragmentsIn_cons (h : isStop env payload = false) :
    fragmentsIn env (payload :: payloads) =
      fragmentsOf env payload ++ fragmentsIn env payloads := by
  simp [fragmentsIn, body, h]

end Cons

/-- The status that payloads leave behind. -/
def statusOf (pending : Pending N) (payloads : List JsString) : Status N :=
  match stop env payloads with
  | none => .reading ((fragmentsIn env payloads).foldl (addFragment env) pending)
  | some payload => if payload = done then .returned else .threw

theorem textParts_eq (content : JsString) :
    (textParts content : List (Part N)) = ([content].filter (· ≠ [])).map .text := by
  by_cases h : content = [] <;> simp [textParts, h]

/-- `handlePayloads` in terms of the payloads. -/
theorem handlePayloads_eq (pending : Pending N) (payloads : List JsString) :
    handlePayloads env pending payloads =
      ((contentsIn env payloads).map .text ++
          (if stop env payloads = some done then
            flush env ((fragmentsIn env payloads).foldl (addFragment env) pending) else []),
        statusOf env pending payloads) := by
  induction payloads generalizing pending with
  | nil => rfl
  | cons payload payloads ih =>
    rw [handlePayloads]
    by_cases hdone : payload = done
    · subst hdone
      have hstop : isStop env done = true := by rw [isStop, decide_eq_true rfl, Bool.true_or]
      have hfind : stop env (done :: payloads) = some done := by simp [stop, hstop]
      have hfragments : fragmentsIn env (done :: payloads) = [] := by simp [fragmentsIn, body, hstop]
      rw [if_pos rfl, contentsIn_stop _ hstop, contentOf_done, hfind, if_pos rfl, hfragments, statusOf,
        hfind]
      rfl
    · rw [if_neg hdone, handlePayload_eq]
      cases hshape : misshapen env payload with
      | true =>
        have hstop : isStop env payload = true := by rw [isStop, hshape, Bool.or_true]
        have hfind : stop env (payload :: payloads) = some payload := by simp [stop, hstop]
        rw [contentsIn_stop _ hstop, statusOf, hfind]
        simp [hdone, textParts_eq]
      | false =>
        have hstop : isStop env payload = false := by
          rw [isStop, hshape, decide_eq_false hdone, Bool.false_or]
        have hfind : stop env (payload :: payloads) = stop env payloads := by simp [stop, hstop]
        simp only [Bool.false_eq_true, if_false, ih]
        rw [contentsIn_cons _ hstop, statusOf, statusOf, hfind, fragmentsIn_cons _ hstop,
          List.foldl_append, textParts_eq, List.map_append, List.append_assoc]

/-- What `pumpStream` reports. -/
theorem parts_eq (d : Delivery) :
    (pumpStream env d).1 = (contentsIn env d.received).map .text ++
      (if d.ending = .failed ∧ stop env d.received = none then []
        else finalCalls env d.received) := by
  rw [pumpStream_eq, handlePayloads_eq, statusOf, finalCalls, thrown]
  rcases stop env d.received with _ | payload
  · cases hending : d.ending <;> simp [finish, flush_foldl]
  · by_cases hdone : payload = done <;> simp [finish, flush_foldl, hdone]

/-! ## A start of the payloads -/

section Start

variable {env}

theorem stop_append (a b : List JsString) :
    stop env (a ++ b) = (stop env a).or (stop env b) := by
  rw [stop, List.find?_append]
  rfl

/-- Payloads behind a stop do not matter. -/
theorem of_stop {a : List JsString} {payload : JsString} (h : stop env a = some payload)
    (b : List JsString) :
    stop env (a ++ b) = some payload ∧ contentsIn env (a ++ b) = contentsIn env a ∧
      fragmentsIn env (a ++ b) = fragmentsIn env a := by
  have hstop : stop env (a ++ b) = some payload := by rw [stop_append, h, Option.some_or]
  have hbody : body env (a ++ b) = body env a := by
    obtain ⟨hpayload, before, after, rfl, hbefore⟩ := List.find?_eq_some_iff_append.mp h
    have htake (rest : List JsString) :
        body env (before ++ payload :: rest) = before := by
      rw [body, List.takeWhile_append_of_pos hbefore,
        List.takeWhile_cons_of_neg (by simp [hpayload]), List.append_nil]
    rw [List.append_assoc, List.cons_append, htake, htake]
  refine ⟨hstop, ?_, ?_⟩
  · rw [contentsIn, contentsIn, hbody, hstop, h]
  · rw [fragmentsIn, fragmentsIn, hbody]

/-- Without a stop what comes later is added. -/
theorem of_no_stop {a : List JsString} (h : stop env a = none) (b : List JsString) :
    stop env (a ++ b) = stop env b ∧ contentsIn env (a ++ b) = contentsIn env a ++ contentsIn env b ∧
      fragmentsIn env (a ++ b) = fragmentsIn env a ++ fragmentsIn env b := by
  have hstop : stop env (a ++ b) = stop env b := by rw [stop_append, h, Option.none_or]
  have hall : ∀ payload ∈ a, (!isStop env payload) = true := by
    intro payload hmem
    rw [Bool.not_eq_true']
    exact Bool.eq_false_iff.mpr (List.find?_eq_none.mp h payload hmem)
  have hbody : body env (a ++ b) = body env a ++ body env b := by
    rw [body, body, List.takeWhile_append_of_pos hall, List.takeWhile_eq_self_iff.mpr hall]
    rfl
  refine ⟨hstop, ?_, ?_⟩
  · rw [contentsIn, hbody, hstop, contentsIn, contentsIn, h, Option.toList_none, List.append_nil,
      List.append_assoc, List.map_append, List.filter_append]
  · rw [fragmentsIn, hbody, List.flatMap_append]
    rfl

/-- A payload that changes nothing. -/
def Inert (env : JsEnv N) (payload : JsString) : Prop :=
  isStop env payload = false ∧ contentOf env payload = [] ∧ fragmentsOf env payload = []

theorem of_inert {b : List JsString} (h : ∀ payload ∈ b, Inert env payload) (a : List JsString) :
    stop env (a ++ b) = stop env a ∧ contentsIn env (a ++ b) = contentsIn env a ∧
      fragmentsIn env (a ++ b) = fragmentsIn env a := by
  have hb : stop env b = none ∧ contentsIn env b = [] ∧ fragmentsIn env b = [] := by
    induction b with
    | nil => exact ⟨rfl, rfl, rfl⟩
    | cons payload b ih =>
      obtain ⟨⟨hstop, hcontent, hfragments⟩, hrest⟩ := List.forall_mem_cons.mp h
      obtain ⟨ihstop, ihcontents, ihfragments⟩ := ih hrest
      refine ⟨?_, ?_, ?_⟩
      · rw [stop, List.find?_cons_of_neg (by simp [hstop])]
        exact ihstop
      · rw [contentsIn_cons _ hstop, hcontent, ihcontents]
        rfl
      · rw [fragmentsIn_cons _ hstop, hfragments, ihfragments]
        rfl
  cases ha : stop env a with
  | none =>
    obtain ⟨hstop, hcontents, hfragments⟩ := of_no_stop ha b
    rw [hstop, hcontents, hfragments, hb.1, hb.2.1, hb.2.2, List.append_nil, List.append_nil]
    exact ⟨rfl, rfl, rfl⟩
  | some payload => exact of_stop ha b

end Start

/-! ## The terminal error event -/

/-- The body of an error event of the gateway: an object whose first key is `error`, without
choices. -/
def IsErrorBody (body : Text) : Prop :=
  '\n' ∉ body ∧ "\x7b\"error".toList <+: body ∧
    ∃ fields, parse env.ofNumeral (jsTrim (ofText (' ' :: body))) = some (.obj fields) ∧
      Js.get (.obj fields) "choices" = none

/-- A response that is cut short: the stream `whole` ends somewhere, or the gateway ends it with an
error event. -/
inductive CutShort (whole : List UInt8) (d : Delivery) : Prop
  | ended (h : d.chunks.flatten <+: whole)
  | refused {bytes : List UInt8} {body : Text} (hbytes : bytes <+: whole) (hwhole : Sse.Whole whole)
      (hbody : IsErrorBody env body) (h : d.chunks.flatten = bytes ++ dataEvent body)

/-- Trimming does not reach the marker. -/
theorem jsTrim_marker (y x : JsString) : ∃ y' x', jsTrim (y ++ marker ++ x) = y' ++ marker ++ x' := by
  have hkept (z : JsString) : ∃ x', (z ++ marker ++ x).rdropWhile isJsWhiteSpace = z ++ marker ++ x' := by
    induction x using List.reverseRecOn with
    | nil =>
      have hmarker : marker = marker.take 8 ++ [unit 'e'] := by decide
      refine ⟨[], ?_⟩
      rw [List.append_nil, hmarker, ← List.append_assoc]
      exact List.rdropWhile_concat_neg _ _ _ (by decide)
    | append_singleton x u ih =>
      rw [← List.append_assoc]
      by_cases hu : isJsWhiteSpace u = true
      · rw [List.rdropWhile_concat_pos _ _ _ hu]
        exact ih
      · exact ⟨x ++ [u], by rw [List.rdropWhile_concat_neg _ _ _ hu, List.append_assoc]⟩
  rw [jsTrim, dropWhile_marker (by decide)]
  obtain ⟨x', hx'⟩ := hkept (y.dropWhile isJsWhiteSpace)
  exact ⟨_, x', hx'⟩

/-- A line that begins with `data:` and goes on with an event is that event, or it has begun with
`data:` before. -/
theorem dataField_prefix {z t : JsString} (h : dataField <+: z ++ unit 'd' :: t) :
    z = [] ∨ dataField <+: z := by
  by_cases hlength : dataField.length ≤ z.length
  · exact .inr (List.prefix_of_prefix_length_le h (List.prefix_append _ _) hlength)
  · -- The field name has one `d`, and it stands at the start.
    have hfirst : ∀ k < dataField.length, dataField[k]? = some (unit 'd') → k = 0 := by decide
    obtain ⟨s, hs⟩ := h
    have hleft : (dataField ++ s)[z.length]? = dataField[z.length]? :=
      List.getElem?_append_left (Nat.lt_of_not_le hlength)
    have hunit : dataField[z.length]? = some (unit 'd') := by
      rw [← hleft, hs, List.getElem?_append_right (le_refl _), Nat.sub_self]
      rfl
    exact .inl (List.eq_nil_of_length_eq_zero (hfirst z.length (Nat.lt_of_not_le hlength) hunit))

/-- The payload of the line that an error event closes changes nothing. -/
theorem inert_error {body : Text} (hbody : IsErrorBody env body) (openLine : JsString)
    {payload : JsString}
    (h : payload ∈ linePayloads [openLine ++ ofText ("data: ".toList ++ body)]) :
    Inert env payload := by
  obtain ⟨-, ⟨rest, hrest⟩, fields, hparse, hchoices⟩ := hbody
  obtain ⟨line, hline, rfl⟩ := List.mem_map.mp h
  obtain ⟨hline, hfield⟩ := List.mem_filter.mp hline
  obtain rfl := List.mem_singleton.mp hline
  have hevent : ofText ("data: ".toList ++ body) = marker ++ ofText ("rror".toList ++ rest) := by
    rw [← hrest, marker, ← ofText_append]
    rfl
  have hdelta {payload : JsString} (hdone : payload ≠ done) (h : deltaOf env payload = some none) :
      Inert env payload := by
    have hitems : callItems env payload = some [] := by rw [callItems, h]; rfl
    refine ⟨?_, ?_, ?_⟩
    · rw [isStop, decide_eq_false hdone, misshapen, hitems]
      rfl
    · rw [contentOf, h]
      rfl
    · rw [fragmentsOf, hitems]
      rfl
  rcases dataField_prefix (List.isPrefixOf_iff_prefix.mp hfield) with rfl | hopen
  · -- The event has a line of its own.
    change Inert env (jsTrim (ofText (' ' :: body)))
    refine hdelta (fun heq => ?_) ?_
    · have hlex : lex done = none := by decide +kernel
      rw [heq, parse, hlex] at hparse
      cases hparse
    · rw [deltaOf, hparse]
      simp only [deltaOfChunk, hchoices]
      rfl
  · -- The event goes on with a payload that has broken off.
    obtain ⟨z, rfl⟩ := hopen
    have hdrop : (dataField ++ z ++ ofText ("data: ".toList ++ body)).drop 5 =
        z ++ marker ++ ofText ("rror".toList ++ rest) := by
      rw [hevent, List.append_assoc, List.append_assoc]
      rfl
    rw [hdrop]
    obtain ⟨y', x', htrim⟩ := jsTrim_marker z (ofText ("rror".toList ++ rest))
    rw [htrim]
    refine hdelta (fun heq => ?_) (by rw [deltaOf, parse_marker])
    have hmem : unit 'd' ∈ y' ++ marker ++ x' := by simp [marker_eq]
    exact absurd (heq ▸ hmem) (by decide)

/-- What a response that is cut short completes: a start of what the whole completes, and payloads
that change nothing. -/
theorem received_of_cutShort {whole : List UInt8} {d : Delivery} (h : CutShort env whole d) :
    ∃ start inert, d.received = start ++ inert ∧ start <+: payloadsOf whole ∧
      ∀ payload ∈ inert, Inert env payload := by
  cases h with
  | ended h =>
    exact ⟨d.received, [], (List.append_nil _).symm, payloadsOf_prefix h,
      fun _ h => absurd h List.not_mem_nil⟩
  | refused hbytes hwhole hbody h =>
    obtain ⟨closed, openLine, hpayloads, hstart⟩ := payloadsOf_dataEvent _ hbody.1
    rw [Delivery.received, h, hpayloads]
    exact ⟨_, _, rfl, hstart _ hbytes hwhole, fun _ => inert_error env hbody openLine⟩

/-! ## The condition -/

/-- What is reported stays a start of what the whole reports: the last read failed, or the payloads
have stopped, or the fragments make up no call, or no content comes later and the calls of the
fragments are the first ones of the whole. -/
def Kept (whole : List UInt8) (d : Delivery) : Prop :=
  d.ending = .failed ∨ (stop env d.received).isSome ∨ callsOf env (fragmentsIn env d.received) = [] ∨
    (contentsIn env d.received = contentsIn env (payloadsOf whole) ∧
      callsOf env (fragmentsIn env d.received) <+: finalCalls env (payloadsOf whole))

theorem callsOf_toolCall {fragments : List (Fragment N)} {part : Part N}
    (h : part ∈ callsOf env fragments) : ∃ callId name input, part = .toolCall callId name input := by
  obtain ⟨c, -, hpart⟩ := List.mem_filterMap.mp h
  rw [reportCall] at hpart
  split at hpart
  · cases hpart
  · obtain ⟨input, -, rfl⟩ := Option.map_eq_some_iff.mp hpart
    exact ⟨_, _, input, rfl⟩

/-- Calls behind some texts are a start of more texts and calls only where there are no calls, or no
more texts. -/
theorem texts_prefix_iff {contents more : List JsString} {calls rest : List (Part N)}
    (hcalls : ∀ part ∈ calls, ∃ callId name input, part = .toolCall callId name input) :
    contents.map .text ++ calls <+: (contents ++ more).map .text ++ rest ↔
      calls = [] ∨ (more = [] ∧ calls <+: rest) := by
  rw [List.map_append, List.append_assoc, List.prefix_append_right_inj]
  cases more with
  | nil =>
    simp only [List.map_nil, List.nil_append, true_and]
    refine ⟨.inr, ?_⟩
    rintro (rfl | h)
    · exact List.nil_prefix
    · exact h
  | cons content more =>
    cases calls with
    | nil => simp
    | cons call calls =>
      obtain ⟨callId, name, input, rfl⟩ := hcalls call List.mem_cons_self
      simp [List.cons_prefix_cons]

/-- What a whole stream reports. -/
theorem parts_whole (full : List (List UInt8)) :
    (pumpStream env ⟨full, .closed⟩).1 = (contentsIn env (payloadsOf full.flatten)).map .text ++
      finalCalls env (payloadsOf full.flatten) := by
  rw [parts_eq, if_neg (by rintro ⟨h, -⟩; cases h)]
  rfl

theorem prefix_iff_kept {full : List (List UInt8)} {d : Delivery}
    (h : CutShort env full.flatten d) :
    (pumpStream env d).1 <+: (pumpStream env ⟨full, .closed⟩).1 ↔ Kept env full.flatten d := by
  obtain ⟨start, inert, hreceived, ⟨later, hlater⟩, hinert⟩ := received_of_cutShort env h
  obtain ⟨hstop, hcontents, hfragments⟩ := of_inert hinert start
  have hfinal : finalCalls env d.received = finalCalls env start := by
    rw [finalCalls, finalCalls, thrown, thrown, hreceived, hstop, hfragments]
  rw [Kept, parts_eq, parts_whole, hfinal, hreceived, hstop, hcontents, hfragments, ← hlater]
  cases hstart : stop env start with
  | some payload =>
    -- The whole stops at the same payload.
    obtain ⟨hstop', hcontents', hfragments'⟩ := of_stop hstart later
    have hwhole : finalCalls env (start ++ later) = finalCalls env start := by
      rw [finalCalls, finalCalls, thrown, thrown, hstop', hstart, hfragments']
    rw [if_neg (by rintro ⟨-, h⟩; cases h), hcontents', hwhole]
    exact iff_of_true (List.prefix_refl _) (.inr (.inl rfl))
  | none =>
    obtain ⟨-, hcontents', -⟩ := of_no_stop hstart later
    have hcalls : finalCalls env start = callsOf env (fragmentsIn env start) := by
      rw [finalCalls, thrown, hstart]
      rfl
    rw [hcontents', hcalls, List.self_eq_append_right]
    by_cases hending : d.ending = .failed
    · rw [if_pos ⟨hending, rfl⟩, List.map_append, List.append_nil, List.append_assoc]
      exact iff_of_true (List.prefix_append _ _) (.inl hending)
    · rw [if_neg (by rintro ⟨h, -⟩; exact hending h),
        texts_prefix_iff fun part hpart => callsOf_toolCall env hpart]
      simp [hending]

/-! ## The whole stream -/

/-- The text of some parts. -/
def spoken (parts : List (Part N)) : JsString :=
  parts.flatMap fun part =>
    match part with
    | .text value => value
    | .toolCall .. => []

/-- The tool calls of some parts. -/
def toolCalls (parts : List (Part N)) : List (Part N) :=
  parts.filter fun part =>
    match part with
    | .text _ => false
    | .toolCall .. => true

/-- The payloads before `[DONE]`. -/
def before (payloads : List JsString) : List JsString := payloads.takeWhile (· ≠ done)

/-- The text is that of all content deltas, and each index with a name whose arguments are JSON has
one call. -/
def Told (payloads : List JsString) (parts : List (Part N)) : Prop :=
  spoken parts = (before payloads).flatMap (contentOf env) ∧
    toolCalls parts = callsOf env ((before payloads).flatMap (fragmentsOf env))

/-- A misshapen payload does no harm: no content comes behind it, and there is no call. -/
def NothingLost (payloads : List JsString) : Prop :=
  thrown env payloads = true →
    (∀ payload ∈ (before payloads).drop ((body env payloads).length + 1),
      contentOf env payload = []) ∧
    callsOf env ((before payloads).flatMap (fragmentsOf env)) = []

theorem spoken_append (contents : List JsString) {calls : List (Part N)}
    (hcalls : ∀ part ∈ calls, ∃ callId name input, part = .toolCall callId name input) :
    spoken (contents.map .text ++ calls) = contents.flatten ∧
      toolCalls (contents.map .text ++ calls) = calls := by
  have hspoken : spoken calls = [] := by
    refine List.flatMap_eq_nil_iff.mpr fun part hpart => ?_
    obtain ⟨callId, name, input, rfl⟩ := hcalls part hpart
    rfl
  have hkept : toolCalls calls = calls := by
    refine List.filter_eq_self.mpr fun part hpart => ?_
    obtain ⟨callId, name, input, rfl⟩ := hcalls part hpart
    rfl
  constructor
  · have happend (a b : List (Part N)) : spoken (a ++ b) = spoken a ++ spoken b :=
      List.flatMap_append
    rw [happend, hspoken, List.append_nil, spoken, List.flatMap_map]
    exact List.flatMap_id
  · have happend (a b : List (Part N)) : toolCalls (a ++ b) = toolCalls a ++ toolCalls b :=
      List.filter_append a b
    have htexts : toolCalls (contents.map .text : List (Part N)) = [] := by simp [toolCalls]
    rw [happend, htexts, hkept, List.nil_append]

theorem finalCalls_toolCall {payloads : List JsString} {part : Part N}
    (h : part ∈ finalCalls env payloads) :
    ∃ callId name input, part = .toolCall callId name input := by
  rw [finalCalls] at h
  split at h
  · cases h
  · exact callsOf_toolCall env h

theorem contentsIn_flatten (payloads : List JsString) :
    (contentsIn env payloads).flatten =
      (body env payloads ++ (stop env payloads).toList).flatMap (contentOf env) := by
  rw [contentsIn, List.flatMap_def]
  induction (body env payloads ++ (stop env payloads).toList).map (contentOf env) with
  | nil => rfl
  | cons content contents ih =>
    by_cases h : content = []
    · simpa [h] using ih
    · simpa [h] using ih

/-- The payloads before `[DONE]` are those before the stop and, where the stop is a misshapen payload,
that payload and some behind it. -/
theorem before_eq (payloads : List JsString) :
    if thrown env payloads then
      ∃ payload behind, stop env payloads = some payload ∧
        before payloads = body env payloads ++ payload :: behind
    else before payloads = body env payloads := by
  have hread {a : List JsString} (ha : ∀ payload ∈ a, (!isStop env payload) = true)
      (rest : List JsString) : before (a ++ rest) = a ++ before rest := by
    refine List.takeWhile_append_of_pos fun payload hmem => ?_
    have hpayload := ha payload hmem
    rw [isStop, Bool.not_or, Bool.and_eq_true] at hpayload
    simpa using hpayload.1
  cases hstop : stop env payloads with
  | none =>
    have hall : ∀ payload ∈ payloads, (!isStop env payload) = true := by
      intro payload hmem
      rw [Bool.not_eq_true']
      exact Bool.eq_false_iff.mpr (List.find?_eq_none.mp hstop payload hmem)
    have hbefore := hread hall []
    rw [List.append_nil] at hbefore
    rw [thrown, hstop, if_neg (by simp), hbefore, body, List.takeWhile_eq_self_iff.mpr hall]
    exact List.append_nil _
  | some payload =>
    obtain ⟨hpayload, a, rest, rfl, ha⟩ := List.find?_eq_some_iff_append.mp hstop
    have hbody : body env (a ++ payload :: rest) = a := by
      rw [body, List.takeWhile_append_of_pos ha, List.takeWhile_cons_of_neg (by simp [hpayload]),
        List.append_nil]
    rw [thrown, hstop, hbody, hread ha]
    by_cases hdone : payload = done
    · rw [if_neg (by simp [hdone]), hdone, before, List.takeWhile_cons_of_neg (by simp),
        List.append_nil]
    · rw [if_pos (by simp [hdone])]
      refine ⟨payload, before rest, rfl, ?_⟩
      rw [before, List.takeWhile_cons_of_pos (by simp [hdone])]
      rfl

theorem told_iff (full : List (List UInt8)) :
    Told env (payloadsOf full.flatten) (pumpStream env ⟨full, .closed⟩).1 ↔
      NothingLost env (payloadsOf full.flatten) := by
  obtain ⟨hspoken, hcalls⟩ := spoken_append (contentsIn env (payloadsOf full.flatten))
    fun part hpart => finalCalls_toolCall env hpart
  rw [Told, parts_whole, hspoken, hcalls, contentsIn_flatten, NothingLost, finalCalls]
  generalize payloadsOf full.flatten = payloads
  have hbefore := before_eq env payloads
  cases hthrown : thrown env payloads with
  | false =>
    rw [hthrown, if_neg Bool.false_ne_true] at hbefore
    have hstop : (stop env payloads).toList.flatMap (contentOf env) = [] := by
      rw [thrown] at hthrown
      rcases hstop : stop env payloads with _ | payload
      · rfl
      · have hdone : payload = done := by simpa [hstop] using hthrown
        rw [hdone, Option.toList_some, List.flatMap_singleton, contentOf_done]
    rw [hbefore, List.flatMap_append, hstop, List.append_nil, if_neg Bool.false_ne_true]
    exact iff_of_true ⟨rfl, rfl⟩ fun h => nomatch h
  | true =>
    rw [hthrown, if_pos rfl] at hbefore
    obtain ⟨payload, behind, hstop, hbefore⟩ := hbefore
    have hdrop : (before payloads).drop ((body env payloads).length + 1) = behind := by
      rw [hbefore, List.drop_append, List.drop_eq_nil_of_le (Nat.le_succ _)]
      simp
    have hcontents : (before payloads).flatMap (contentOf env) =
        (body env payloads ++ [payload]).flatMap (contentOf env) ++ behind.flatMap (contentOf env) := by
      rw [hbefore, ← List.flatMap_append, List.append_assoc, List.singleton_append]
    rw [hdrop, hstop, if_pos rfl, Option.toList_some, hcontents, List.self_eq_append_right,
      List.flatMap_eq_nil_iff, eq_comm (a := [])]
    simp

/-- A response that is cut short reports a start of what the whole reports exactly where it is
`Kept`, and the whole reports every content and every call exactly where `NothingLost`. -/
theorem cut_short_iff {full : List (List UInt8)} {d : Delivery} (h : CutShort env full.flatten d) :
    ((pumpStream env d).1 <+: (pumpStream env ⟨full, .closed⟩).1 ↔ Kept env full.flatten d) ∧
      (Told env (payloadsOf full.flatten) (pumpStream env ⟨full, .closed⟩).1 ↔
        NothingLost env (payloadsOf full.flatten)) :=
  ⟨prefix_iff_kept env h, told_iff env full⟩

/-- Natural numbers for numbers. -/
def naturals : JsEnv ℕ where
  ofNumeral numeral := numeral.foldl (fun n u => 10 * n + (u.toNat - 0x30)) 0
  zero := 0
  sameNumber a b := a = b
  text _ := none

/-- An event with this delta of choice 0. -/
def deltaEvent (delta : String) : List UInt8 :=
  dataEvent ("\x7b\"choices\":[\x7b\"delta\":" ++ delta ++ "\x7d]\x7d").toList

def textEvent : List UInt8 := deltaEvent "\x7b\"content\":\"Hi\"\x7d"

/-- A call with its name and its arguments. -/
def callEvent : List UInt8 :=
  deltaEvent ("\x7b\"tool_calls\":[\x7b\"index\":0,\"id\":\"a\",\"function\":" ++
    "\x7b\"name\":\"ls\",\"arguments\":\"\x7b\x7d\"\x7d\x7d]\x7d")

def doneEvent : List UInt8 := dataEvent "[DONE]".toList

/-- A cut between the text and the call of a response. -/
theorem cut_short_behind_text :
    (pumpStream naturals ⟨[textEvent], .closed⟩).1 <+:
        (pumpStream naturals ⟨[textEvent, callEvent, doneEvent], .closed⟩).1 ∧
      Told naturals (payloadsOf [textEvent, callEvent, doneEvent].flatten)
        (pumpStream naturals ⟨[textEvent, callEvent, doneEvent], .closed⟩).1 := by
  have hcut : CutShort naturals [textEvent, callEvent, doneEvent].flatten ⟨[textEvent], .closed⟩ :=
    .ended ⟨callEvent ++ doneEvent, by simp⟩
  have hfragments : fragmentsIn naturals (Delivery.received ⟨[textEvent], .closed⟩) = [] :=
    List.isEmpty_iff.mp (by decide +kernel)
  have hcalls : callsOf naturals ([] : List (Fragment ℕ)) = [] := by
    rw [callsOf, classes, List.filterMap_nil]
  have hthrown : thrown naturals (payloadsOf [textEvent, callEvent, doneEvent].flatten) = false := by
    decide +kernel
  obtain ⟨hfirst, htold⟩ := cut_short_iff naturals hcut
  refine ⟨hfirst.mpr (.inr (.inr (.inl ?_))), htold.mpr ?_⟩
  · rw [hfragments, hcalls]
  · rw [NothingLost, hthrown]
    exact fun h => by cases h

/-- A call whose arguments have not come yet. -/
def namedEvent : List UInt8 :=
  deltaEvent ("\x7b\"tool_calls\":[\x7b\"index\":0,\"id\":\"a\",\"function\":" ++
    "\x7b\"name\":\"rm\",\"arguments\":\"\"\x7d\x7d]\x7d")

/-- Its arguments. -/
def argumentsEvent : List UInt8 :=
  deltaEvent ("\x7b\"tool_calls\":[\x7b\"index\":0,\"function\":" ++
    "\x7b\"arguments\":\"\x7b\\\"path\\\":\\\"a.ts\\\"\x7d\"\x7d\x7d]\x7d")

/-- How many fields the input of a call has. -/
def fieldCount : Part ℕ → ℕ
  | .toolCall _ _ (.obj fields) => fields.length
  | _ => 0

/-- A stream that ends between the name and the arguments of a call reports the call with an empty
input. -/
theorem call_without_arguments :
    CutShort naturals [namedEvent, argumentsEvent, doneEvent].flatten ⟨[namedEvent], .closed⟩ ∧
      ¬ (pumpStream naturals ⟨[namedEvent], .closed⟩).1 <+:
        (pumpStream naturals ⟨[namedEvent, argumentsEvent, doneEvent], .closed⟩).1 := by
  refine ⟨.ended ⟨argumentsEvent ++ doneEvent, by simp⟩, fun hfirst => ?_⟩
  obtain ⟨hcut, hfull⟩ :
      (pumpStream naturals ⟨[namedEvent], .closed⟩).1.map fieldCount = [0] ∧
      (pumpStream naturals ⟨[namedEvent, argumentsEvent, doneEvent], .closed⟩).1.map
        fieldCount = [1] := by
    decide +kernel
  have hcounts := hfirst.map fieldCount
  rw [hcut, hfull] at hcounts
  exact absurd hcounts (by decide)

end ChatStream

end Governance
