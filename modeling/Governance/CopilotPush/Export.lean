import Governance.CopilotPush.Journal

/-!
# One pass over one signal

`copilot/export/mod.rs` and `copilot/export/isolate.rs`: the lines are offered to the
collector; a batch it refuses for good is split in half, down to single records, from left to
right. A record refused on its own is given up only when separate wakes have refused it and
the collector has been shown to accept something, if need be with a probe.
-/

namespace Governance

open Utf8Text ByteLines

namespace Push

/-- `export::MAX_REQUESTS`. -/
def maxRequests : ℕ := 512

variable (env : PushEnv) (offer : Offer)

/-- The loop of `isolate::probe`, from the line with the index `next` on. -/
def probe : ℕ → List Line → Progress → Machine → Option ℕ × Progress × Machine
  | _, [], p, m => (none, { p with exhausted := true }, m)
  | next, line :: rest, p, m =>
    match build env.toReader [line] offer.signal with
    | none => probe (next + 1) rest p m
    | some records =>
      let r := m.post env offer.signal [line]
      let p := { p with requests := p.requests + 1 }
      match r.1 with
      | .accepted => (some (next + 1), { p with accepted := p.accepted + records }, r.2)
      | _ => (none, p, r.2)

/-- `Journal::quarantine` with a new table. -/
def Machine.withQuarantine (m : Machine) (q : Quarantine) : Machine :=
  { m with journal := { m.journal with state := { m.journal.state with quarantine := q } } }

/-- The end of `isolate::refused` when the record is given up: everything before `end'` is
resolved. -/
def giveUp (line : Line) (key : String) (end' : ℕ) (p : Progress) (m : Machine) :
    Progress × Machine :=
  let m := m.withQuarantine (m.journal.state.quarantine.forget key)
  ({ p with discarded := p.discarded + 1, resolved := end' },
    { m with ledger := m.ledger ++ [.gaveUp m.generation offer.signal line], given := m.given ++ [line] })

/-- `isolate::refused`: whether the pass may carry on. -/
def refused (lines : List Line) (index : ℕ) (p : Progress) (m : Machine) :
    Bool × Progress × Machine :=
  match lines[index]? with
  | none => (false, p, m)
  | some line =>
    let key := Quarantine.key env.digest line.text
    let entry := m.journal.state.quarantine.refused key offer.now 0
    let m := m.withQuarantine entry.2
    let r : Option ℕ × Progress × Machine :=
      if !entry.1 then (none, p, m)
      else if p.accepted > 0 then (some (index + 1), p, m)
      else probe env offer (index + 1) (lines.drop (index + 1)) p m
    match r.1 with
    | some end' => (true, giveUp offer line key end' r.2.1 r.2.2)
    | none => (false, { r.2.1 with held := r.2.1.held + 1, stopped := true }, r.2.2)

/-- The loop of `export::signal`; the head of the list is the top of the stack. -/
def exportLoop (lines : List Line) :
    ℕ → List (ℕ × ℕ) → Progress → Machine → Progress × Machine
  | 0, _, p, m => (p, m)
  | _ + 1, [], p, m => (p, m)
  | fuel + 1, (start, end') :: rest, p, m =>
    match commit env offer lines true p m with
    | (false, p, m) => ({ p with stopped := true }, m)
    | (true, p, m) =>
      let start := max start p.resolved
      if start ≥ end' then exportLoop lines fuel rest p m
      else if p.requests ≥ maxRequests then ({ p with stopped := true }, m)
      else if end' > lines.length then ({ p with stopped := true }, m)
      else
        let slice := (lines.drop start).take (end' - start)
        match build env.toReader slice offer.signal with
        | none => exportLoop lines fuel rest { p with resolved := end' } m
        | some records =>
          let p := { p with requests := p.requests + 1 }
          match m.post env offer.signal slice with
          | (.error, m) => ({ p with stopped := true }, m)
          | (.accepted, m) =>
            exportLoop lines fuel rest
              { p with accepted := p.accepted + records, resolved := end' } m
          | (.refused, m) =>
            if end' - start > 1 then
              let middle := start + (end' - start) / 2
              exportLoop lines fuel ((start, middle) :: (middle, end') :: rest) p m
            else
              match refused env offer lines start p m with
              | (false, p, m) => (p, m)
              | (true, p, m) => exportLoop lines fuel rest p m

/-- `export::signal`. A range is split at most once for each of its inner places, so the loop
makes at most twice as many turns as there are lines. -/
def exportSignal (lines : List Line) (m : Machine) : Progress × Machine :=
  let r := exportLoop env offer lines (2 * lines.length + 1) [(0, lines.length)] .default m
  let c := commit env offer lines false r.1 r.2
  (if c.1 then c.2.1 else { c.2.1 with stopped := true }, c.2.2)

end Push

end Governance
