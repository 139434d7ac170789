import KjRedis.Rdb.DumpReader
import KjRedis.Rdb.FileReader
import KjRedis.Rdb.Records

/-! However the bytes of a record or of a dump's payload are cut, the callback is given the object once. -/
namespace KjRedis.Rdb

open Resumption

section Cuttings

variable (cb : List RdbObject → Bool) {rp : RdbParser}

/-- A call that has taken `bb` and come to `rp'` is given more: where it waits it goes on from there,
and else it leaves the rest. -/
def GoesOn (once : Builder) (rp : RdbParser) (bb : List UInt8) (rc : Rc) (rp' : RdbParser)
    (more : List UInt8) : Prop :=
  if rc = .premature then ∀ out, Runs once rp (bb ++ more) out ↔ Runs once rp' more out
  else Runs once rp (bb ++ more) (rc, rp', more)

/-- However what starts with `bytes` is cut, the calls before the one in which they end wait. That one
takes what there is of them and leaves a parser that has given `o` to the callback, and nothing else;
what follows in its chunk it takes from there, if at all. -/
def Delivers (once : Builder) (rp : RdbParser) (bytes : List UInt8) (o : RdbObject) : Prop :=
  ∀ (chunks : List (List UInt8)) (rest : List UInt8), chunks ≠ [] → chunks.flatten = bytes ++ rest →
    ∃ before a b after, chunks = before ++ (a ++ b) :: after ∧ before.flatten ++ a = bytes ∧
      ∃ mid left rc rp', Feeds once rp [] before (List.replicate before.length .premature) mid left ∧
        Runs once mid (left ++ a) (rc, rp', []) ∧ rp'.walked = rp.walked ++ [o] ∧
        GoesOn once mid (left ++ a) rc rp' b

/-- It is enough that one call takes all of the bytes. -/
theorem Delivers.of_whole {once : Builder} {Any Wait : RdbParser → RdbParser → Prop}
    (hlaw : Lawful Rc.premature (Stacked 0) Any Wait once) (hstacked : Stacked 0 rp) {rc : Rc}
    {rp' : RdbParser} {bytes : List UInt8} {o : RdbObject} (hrun : Runs once rp bytes (rc, rp', []))
    (hwalked : rp'.walked = rp.walked ++ [o]) : Delivers once rp bytes o := by
  intro chunks rest hne hcut
  obtain ⟨before, a, b, after, hchunks, hbytes, mid, left, hfeeds, hmid, hend⟩ :=
    hlaw.feeds_cut hstacked hne (show Runs once rp ([] ++ bytes) (rc, rp', []) from hrun) (Or.inr rfl) hcut
  refine ⟨before, a, b, after, hchunks, hbytes, mid, left, rc, rp', hfeeds, hend, hwalked, ?_⟩
  rw [GoesOn]
  split
  · next hwait =>
    subst hwait
    exact hlaw.resume hmid hend b
  · next hrc => exact hlaw.extend hmid hend hrc b

/-- Without input a parser that awaits a record stays as it is. -/
theorem awaits_nothing (h : Awaits rp) (hstate : rp.state = .body) :
    ∃ rp', Runs (rdbParseObjectOnce cb) rp [] (.premature, rp', []) ∧ rp'.walked = rp.walked := by
  obtain ⟨rp₁, hentered⟩ := h.enter
  refine ⟨rp₁, objectOnce_body cb hstate ?_ ⟨Rc.noConfusion, Rc.noConfusion⟩, hentered.same.walked⟩
  rw [buildBody, runs_obLoop hentered.alloc]
  have hidle : Runs (bodyBody cb 0) rp₁ [] (.premature, rp₁, []) :=
    (bodyBody_idle cb hentered.builder).2 rfl
  exact runs_andThen.2 ⟨.premature, rp₁, hidle.last rfl, rfl⟩

/-- One call on the record takes all of it, and gives out its object. -/
theorem record_whole {r : RdbRecord} (hplain : ¬ r.IsAux) (h : Awaits rp) (hstate : rp.state = .body) :
    ∃ rc rp', Runs (rdbParseObjectOnce cb) rp r.encode (rc, rp', []) ∧
      rp'.walked = rp.walked ++ [r.object] := by
  cases hcb : cb (rp.walked ++ [r.object]) with
  | true =>
    obtain ⟨rp', h', hgave, hbody⟩ := record_accepted cb hplain h hcb []
    have hstate' : rp'.state = .body := hgave.state.trans hstate
    rw [List.append_nil] at hbody
    obtain ⟨rp'', hwaits, hwalked⟩ := awaits_nothing cb h' hstate'
    exact ⟨.premature, rp'', (objectOnce_congr cb hstate hstate' hbody).2 hwaits,
      hwalked.trans hgave.walked⟩
  | false =>
    obtain ⟨rp', hgave, hbody⟩ := record_refused cb hplain h hcb []
    rw [List.append_nil] at hbody
    exact ⟨.abort, rp', objectOnce_body cb hstate hbody ⟨Rc.noConfusion, Rc.noConfusion⟩, hgave.walked⟩

/-- A record of a file that is no auxiliary one is delivered. -/
theorem record_delivered {r : RdbRecord} (hplain : ¬ r.IsAux) (h : Awaits rp)
    (hstate : rp.state = .body) : Delivers (rdbParseObjectOnce cb) rp r.encode r.object := by
  obtain ⟨rc, rp', hrun, hwalked⟩ := record_whole cb hplain h hstate
  exact Delivers.of_whole (lawful_rdbParseObjectOnce cb) h.stacked hrun hwalked

theorem readKvVal_nil (v : RdbValue) : readKvVal v.type [] = .more [] := by
  cases v with
  | string e => rfl
  | listOrSet type htype | hashOrZset type htype => rcases htype with rfl | rfl <;> rfl
  | compact type load hloader =>
    rw [RdbValue.type, readKvVal_compact hloader]
    rfl

/-- The payload of a dump is read to its end. -/
theorem readDumpedData_encode (v : RdbValue) (walked : List RdbObject) :
    readDumpedData cb walked (v.type :: v.encode) =
      let o := v.object { RdbObject.init with type := v.type }
      .done (if cb (walked ++ [o]) then .finished (walked ++ [o]) else .abort (walked ++ [o]) o) [] := by
  have hread := readKvVal_encode v []
  rw [List.append_nil] at hread
  rw [readDumpedData, readType]
  simp only [Read.bind, readDumpedVal, hread]
  rfl

/-- A builder of a dump that runs out of input ends the call. -/
theorem dump_ends {rp₁ u : RdbParser} (hstate : rp.state ≠ .over)
    (halloc : rp.stackAllocObjectBuilder 0 = (0, rp₁))
    (hrun : Runs (dumpedDataBody cb 0) rp₁ [] (.premature, u, [])) :
    Runs (rdbParseDumpedDataOnce cb) rp [] (.premature, u, []) := by
  rw [runs_dumpedDataOnce cb hstate]
  exact (buildDumpedData_runs cb halloc Rc.noConfusion (hrun.last rfl)).last rfl

/-- Without input the builder of the next value of a dump gives out nothing. -/
theorem dump_nothing (h : Awaits rp) (hstate : rp.state ≠ .over) :
    ∃ rp', Runs (rdbParseDumpedDataOnce cb) rp [] (.premature, rp', []) ∧ rp'.walked = rp.walked := by
  obtain ⟨rp₁, hentered⟩ := h.enter
  exact ⟨rp₁, dump_ends cb hstate hentered.alloc ((dumpedDataBody_idle cb hentered.builder).2 rfl),
    hentered.same.walked⟩

/-- Nor does it behind a value that was refused, of whose type the next one is taken to be. -/
theorem dump_nothing_refused {walked : List RdbObject} {o : RdbObject} (v : RdbValue)
    (h : (Origin.refused walked o).Stands rp) (htype : o.type = v.type) (hstate : rp.state ≠ .over) :
    ∃ rp', Runs (rdbParseDumpedDataOnce cb) rp [] (.premature, rp', []) ∧ rp'.walked = rp.walked := by
  obtain ⟨htop, hdetail, -, rfl⟩ := h
  have hvalue := @value_follows 0 rp [] htop (by decide)
  rw [htype, readKvVal_nil] at hvalue
  obtain ⟨u, hrun, -⟩ := hvalue
  have hframe := (@lawful_buildObjectDetailKvVal 0 (by decide)).waits htop.stacked hrun
  refine ⟨u, dump_ends cb hstate htop.enter ((dumpedDataBody_val cb hdetail).2 ?_),
    hframe.walked Nat.one_pos⟩
  exact runs_andThen.2 ⟨.premature, u, hrun, if_neg Rc.noConfusion⟩

/-- One call on the value of a dump takes all of it, and gives out its object. -/
theorem payload_whole (v : RdbValue) (h : Awaits rp) (hstate : rp.state ≠ .over) :
    ∃ rp', Runs (rdbParseDumpedDataOnce cb) rp (v.type :: v.encode) (.premature, rp', []) ∧
      rp'.walked = rp.walked ++ [v.object { RdbObject.init with type := v.type }] := by
  obtain ⟨rp₁, hentered⟩ := h.enter
  have hfollows := @dumpedData_follows cb rp₁ (v.type :: v.encode) hentered.top hentered.builder
    (hentered.same.o.trans h.object)
  rw [hentered.same.walked, readDumpedData_encode] at hfollows
  dsimp only at hfollows
  set o := v.object { RdbObject.init with type := v.type } with ho
  obtain ⟨t, hrun, -, hstopped⟩ := hfollows
  obtain ⟨rp', hleft, -, -, -, hgoes⟩ :=
    dump_goes cb hstate hentered.alloc (hentered.same.state ▸ hstate) hrun hstopped
  by_cases hcb : cb (rp.walked ++ [o]) = true
  · rw [if_pos hcb] at hleft
    obtain ⟨rp'', hwaits, hwalked⟩ := dump_nothing cb hleft.1.1 hleft.2
    exact ⟨rp'', (hgoes _).2 hwaits, hwalked.trans hleft.1.2⟩
  · rw [if_neg hcb] at hleft
    obtain ⟨rp'', hwaits, hwalked⟩ := dump_nothing_refused cb v hleft.1 (v.object_type _) hleft.2
    exact ⟨rp'', (hgoes _).2 hwaits, hwalked.trans hleft.1.2.2.1⟩

/-- So is the value of a dump. -/
theorem payload_delivered (v : RdbValue) (h : Awaits rp) (hstate : rp.state ≠ .over) :
    Delivers (rdbParseDumpedDataOnce cb) rp (v.type :: v.encode)
      (v.object { RdbObject.init with type := v.type }) := by
  obtain ⟨rp', hrun, hwalked⟩ := payload_whole cb v h hstate
  exact Delivers.of_whole (lawful_rdbParseDumpedDataOnce cb) h.stacked hrun hwalked

end Cuttings

/-- The links of a container, in the order of the stream. -/
inductive RdbValue.Links : RdbValue → List RdbKv → Prop
  | listOrSet {type htype len es hlen hne} :
      Links (listOrSet type htype len es hlen hne) (es.map fun e => ⟨none, e.value⟩)
  | hashOrZset {type htype len ps hlen hne} :
      Links (hashOrZset type htype len ps hlen hne) (ps.map fun p => ⟨p.1.value, p.2.value⟩)

theorem RdbValue.Links.object {v : RdbValue} {kvs : List RdbKv} (h : v.Links kvs) (o : RdbObject) :
    v.object o = { o.linked kvs with size := kvs.length } := by
  cases h with
  | listOrSet | hashOrZset => rw [RdbValue.object, List.length_map]

/-- A container is delivered with a link for each of its members and with their number, in a file
and from a dump. -/
theorem container_delivered (cb : List RdbObject → Bool) {v : RdbValue} {kvs : List RdbKv}
    (hlinks : v.Links kvs) :
    let o := { RdbObject.init with type := v.type, vall := kvs, size := kvs.length }
    (∀ rp key, Awaits rp → rp.state = .body →
      Delivers (rdbParseObjectOnce cb) rp (v.type :: (RdbElement.encode key ++ v.encode))
        { o with key := key.value }) ∧
      ∀ rp, Awaits rp → rp.state ≠ .over →
        Delivers (rdbParseDumpedDataOnce cb) rp (v.type :: v.encode) o := by
  refine ⟨fun rp key h hstate => ?_, fun rp h hstate => ?_⟩
  · have hrecord := record_delivered cb (r := .kv key v) (fun haux => haux) h hstate
    rw [RdbRecord.object, hlinks.object] at hrecord
    exact hrecord
  · have hpayload := payload_delivered cb v h hstate
    rw [hlinks.object] at hpayload
    exact hpayload

/-- A list of `a` and 5, whose length takes one byte. -/
def twoElements : List RdbElement :=
  [letter,
    { string := .int .int8 5 (by decide), text := [53], read := by decide +kernel }]

def twoElementList : RdbValue :=
  .listOrSet rdbTypeList (Or.inl rfl) [2] twoElements (.six (by decide)) (List.cons_ne_nil _ _)

def oneKey : RdbElement :=
  { string := .plain [1] [107] isRdbLength_one (by decide), text := [107], read := rfl }

theorem container_delivered_twoElements :
    let o := { RdbObject.init with
      type := 1, vall := [⟨none, some [some 97]⟩, ⟨none, some [some 53]⟩], size := 2 }
    Delivers (rdbParseObjectOnce fun _ => true) { createRdbParser with state := .body }
        [1, 1, 107, 2, 1, 97, 192, 5] { o with key := some [some 107] } ∧
      Delivers (rdbParseDumpedDataOnce fun _ => true) createRdbParser [1, 2, 1, 97, 192, 5] o :=
  have hdelivered := container_delivered (fun _ => true) (v := twoElementList) .listOrSet
  ⟨hdelivered.1 _ oneKey ⟨rfl, Or.inl rfl⟩ rfl,
    hdelivered.2 _ awaits_createRdbParser ParseRdb.noConfusion⟩

end KjRedis.Rdb
