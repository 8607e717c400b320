import Avrsim.Properties.Interchange
import Avrsim.Properties.Rearrangement

/-!
# Traces that begin later

A function can be traced from the start or later on, and its log can be cleared in between. Either
way the log holds exactly the visits that began since, each with the cycles it has in a log kept
from the start.

* `Mcu.Beside` — two machines that differ in their records alone
* `Traced.Forgets` — one of two logs lacks the first visits of the other
* `late_eq_drop` — a trace registered later
* `cleared_eq_drop` — a log that has been cleared
-/

namespace Avrsim

variable {ι : Type}

/-! ## Machines that differ in their records -/

/-- Two machines that differ in their records alone, of which `S` relates what `o` sees. -/
structure Mcu.Beside {sim : Simavr ι} {β : Type} (o : Observer sim β) (S : β → β → Prop)
    (m m' : Mcu ι) : Prop where
  bare : m.bare = m'.bare
  view : S (o.view m) (o.view m')

/-- The same machine with other records. -/
theorem exists_of_bare {m m' : Mcu ι} (h : m.bare = m'.bare) :
    ∃ lowestStack traced stackWatches, m' = { m with
      lowestStack := lowestStack, traced := traced, stackWatches := stackWatches } := by
  refine ⟨m'.lowestStack, m'.traced, m'.stackWatches, ?_⟩
  obtain ⟨prog, clockHz, avr, pins, hooks, lowestStack, traced, stackWatches⟩ := m
  obtain ⟨prog', clockHz', avr', pins', hooks', lowestStack', traced', stackWatches'⟩ := m'
  simp only [Mcu.bare, Mcu.mk.injEq] at h
  obtain ⟨rfl, rfl, rfl, rfl, rfl, -⟩ := h
  rfl

/-- The view of an observer that looks neither at the core nor at the pins. -/
def Observer.Inward {sim : Simavr ι} {β : Type} (o : Observer sim β) : Prop :=
  ∀ (m : Mcu ι) (c : Core ι) (pins : PinMap) (hooks : List PinHook),
    o.view { m with avr := c, pins := pins, hooks := hooks } = o.view m

namespace Mcu.Beside

variable {sim : Simavr ι} {β : Type} {o : Observer sim β} {S : β → β → Prop} {m m' : Mcu ι}

/-- What is done to both of them keeps them related, if every event of it does. -/
theorem exec (h : m.Beside o S m')
    (hsampled : ∀ (prog : Program) (b b' : β) (s : Sample), S b b' →
      S (o.see prog b (.sampled s)) (o.see prog b' (.sampled s))) {op : Op}
    (hissued : ∀ (b b' : β) (pc : UInt32), S b b' →
      S (o.see m.prog b (.issued op pc)) (o.see m.prog b' (.issued op pc))) :
    (exec sim m op).2.Beside o S (Avrsim.exec sim m' op).2 := by
  obtain ⟨lowestStack, traced, stackWatches, rfl⟩ := exists_of_bare h.bare
  have hsamples : ∀ (samples : List Sample) (b b' : β), S b b' →
      S ((samples.map Event.sampled).foldl (o.see m.prog) b)
        ((samples.map Event.sampled).foldl (o.see m.prog) b') := by
    intro samples
    induction samples with
    | nil => exact fun _ _ hb => hb
    | cons s samples ih => exact fun b b' hb => ih _ _ (hsampled m.prog b b' s hb)
  refine ⟨?_, ?_⟩
  · rw [bare_exec, h.bare, ← bare_exec]
  · rw [o.view_exec_foldl, o.view_exec_foldl]
    exact hsamples _ _ _ (hissued _ _ _ h.view)

/-- A command fails on both of them or on neither. -/
theorem command (h : m.Beside o S m') (hin : o.Inward)
    (hsampled : ∀ (prog : Program) (b b' : β) (s : Sample), S b b' →
      S (o.see prog b (.sampled s)) (o.see prog b' (.sampled s))) {cmd : Command}
    (hissued : ∀ (op : Op) (b b' : β) (pc : UInt32), cmd = .op op → S b b' →
      S (o.see m.prog b (.issued op pc)) (o.see m.prog b' (.issued op pc))) {m₁ : Mcu ι}
    (hexec : cmd.exec sim m = .ok m₁) :
    ∃ m₁', cmd.exec sim m' = .ok m₁' ∧ m₁.Beside o S m₁' := by
  obtain ⟨lowestStack, traced, stackWatches, rfl⟩ := exists_of_bare h.bare
  have hset : ∀ (c : Core ι) (pins : PinMap) (hooks : List PinHook),
      ({ m with avr := c, pins := pins, hooks := hooks } : Mcu ι).Beside o S
        { m with
          avr := c, pins := pins, hooks := hooks
          lowestStack := lowestStack, traced := traced, stackWatches := stackWatches } := by
    intro c pins hooks
    refine ⟨rfl, ?_⟩
    have hview := hin { m with
      lowestStack := lowestStack, traced := traced, stackWatches := stackWatches } c pins hooks
    rw [hin m c pins hooks, hview]
    exact h.view
  cases cmd with
  | op operation =>
    cases hexec
    exact ⟨_, rfl, h.exec hsampled fun b b' pc => hissued operation b b' pc rfl⟩
  | watch port bit =>
    have hwatch : m.watch sim port bit = .ok m₁ := hexec
    unfold Mcu.watch at hwatch
    split at hwatch
    · next hold =>
      cases hwatch
      exact ⟨_, if_pos hold, h⟩
    · next hnew =>
      split at hwatch
      · next hirq =>
        cases hwatch
        exact ⟨_, (if_neg hnew).trans (if_pos hirq), hset _ _ _⟩
      · cases hwatch
  | drive port bit level =>
    cases hexec
    refine ⟨_, rfl, ?_⟩
    unfold Mcu.drive
    split
    · exact hset _ _ _
    · exact h

end Mcu.Beside

/-- So do all commands of a session. -/
theorem Mcu.Beside.session {sim : Simavr ι} {β : Type} {o : Observer sim β} {S : β → β → Prop}
    (hin : o.Inward)
    (hsampled : ∀ (prog : Program) (b b' : β) (s : Sample), S b b' →
      S (o.see prog b (.sampled s)) (o.see prog b' (.sampled s))) {cmds : List Command}
    (hissued : ∀ (op : Op) (prog : Program) (b b' : β) (pc : UInt32), .op op ∈ cmds → S b b' →
      S (o.see prog b (.issued op pc)) (o.see prog b' (.issued op pc))) {m m' m₁ : Mcu ι}
    (h : m.Beside o S m') (hsession : Avrsim.session sim m cmds = .ok m₁) :
    ∃ m₁', Avrsim.session sim m' cmds = .ok m₁' ∧ m₁.Beside o S m₁' := by
  induction cmds generalizing m m' with
  | nil =>
    rw [session_nil] at hsession
    exact ⟨m', rfl, hsession ▸ h⟩
  | cons cmd cmds ih =>
    obtain ⟨m₂, hexec, hrest⟩ := session_cons.mp hsession
    have hcmd : ∀ (op : Op) (b b' : β) (pc : UInt32), cmd = .op op → S b b' →
        S (o.see m.prog b (.issued op pc)) (o.see m.prog b' (.issued op pc)) :=
      fun op b b' pc hop => hissued op m.prog b b' pc (hop ▸ List.mem_cons_self)
    obtain ⟨m₂', hexec', h₂⟩ := h.command hin hsampled hcmd hexec
    obtain ⟨m₁', hrest', h₁⟩ := ih (fun op prog b b' pc hop =>
      hissued op prog b b' pc (List.mem_cons_of_mem _ hop)) h₂ hrest
    exact ⟨m₁', session_cons.mpr ⟨m₂', hexec', hrest'⟩, h₁⟩

theorem prog_of_session {sim : Simavr ι} {cmds : List Command} {m m' : Mcu ι}
    (h : session sim m cmds = .ok m') : m'.prog = m.prog := by
  induction cmds generalizing m with
  | nil =>
    rw [session_nil] at h
    rw [h]
  | cons cmd cmds ih =>
    obtain ⟨m₁, hexec, hrest⟩ := session_cons.mp h
    rw [ih hrest, Command.exec_prog hexec]

/-! ## Logs without their first visits -/

/-- `late` follows the same function as `early`, and lacks its first `n` visits. -/
structure Traced.Forgets (n : Nat) (early late : Traced) : Prop where
  begin : late.begin = early.begin
  «end» : late.end = early.end
  inside : late.inside = early.inside
  visits : late.log.visits = early.log.visits.drop n
  le : n ≤ early.log.count

theorem Trace.enter_drop {t t' : Trace} {n : Nat} (cycle : UInt64)
    (h : t'.visits = t.visits.drop n) (hle : n ≤ t.count) :
    (t'.enter cycle).visits = (t.enter cycle).visits.drop n := by
  rw [Trace.enter_visits, Trace.enter_visits, h, List.drop_append_of_le_length hle]

/-- Only the last visit is completed, and it is in both logs or has been forgotten. -/
theorem Trace.leave_drop {t t' : Trace} {n : Nat} (cycle : UInt64)
    (h : t'.visits = t.visits.drop n) (hle : n ≤ t.count) :
    (t'.leave cycle).visits = (t.leave cycle).visits.drop n := by
  by_cases hn : n = t.count
  · have hnil : t'.visits = [] := by
      rw [h, hn]
      exact List.drop_length
    have hlength : (t.leave cycle).visits.length = n := by
      rw [Trace.length_leave, hn]
      rfl
    rw [Trace.leave_of_nil hnil, hnil, List.drop_of_length_le (by omega)]
  · rcases List.eq_nil_or_concat t.visits with hnil | ⟨init, v, hinit⟩
    · exact absurd (by simpa [Trace.count, hnil] using hle) (by simpa [Trace.count, hnil] using hn)
    · rw [List.concat_eq_append] at hinit
      have hlt : n ≤ init.length := by
        have hcount : t.count = init.length + 1 := by simp [Trace.count, hinit]
        omega
      have hlate : t'.visits = init.drop n ++ [v] := by
        rw [h, hinit, List.drop_append_of_le_length hlt]
      cases hv : v.complete with
      | true => rw [Trace.leave_of_complete hinit hv, Trace.leave_of_complete hlate hv, h]
      | false =>
        rw [Trace.leave_of_open hinit hv, Trace.leave_of_open hlate hv,
          List.drop_append_of_le_length hlt]

/-- A sample takes no visit away. -/
theorem Traced.length_sample_le (pc : UInt32) (cycle : UInt64) (item : Traced) :
    item.log.count ≤ (item.sample pc cycle).log.count := by
  unfold Traced.sample Trace.count
  simp only
  split
  · simp
  · split
    · exact Nat.le_of_eq (Trace.length_leave cycle item.log).symm
    · exact Nat.le_refl _

theorem Traced.Forgets.sample {n : Nat} {early late : Traced} (h : early.Forgets n late)
    (pc : UInt32) (cycle : UInt64) : (early.sample pc cycle).Forgets n (late.sample pc cycle) := by
  have hcontains : late.contains pc = early.contains pc := by
    unfold Traced.contains
    rw [h.begin, h.end]
  have hgrows := Traced.length_sample_le pc cycle early
  refine ⟨h.begin, h.end, hcontains, ?_, Nat.le_trans h.le hgrows⟩
  unfold Traced.sample
  simp only [hcontains, h.inside]
  split
  · exact Trace.enter_drop cycle h.visits h.le
  · split
    · exact Trace.leave_drop cycle h.visits h.le
    · exact h.visits

/-! ## The log of one symbol -/

theorem inward_traceObserver (sim : Simavr ι) (symbol : String) :
    (traceObserver sim symbol).Inward := fun _ _ _ _ => rfl

/-- The visits in the log of a symbol, if it is traced. -/
def Mcu.visitsOf (symbol : String) (m : Mcu ι) : Option (List Visit) :=
  m.traced[symbol]?.map fun item => item.log.visits

/-- The symbol is traced on the first machine, and not yet on the second. -/
def OnlyFirst (begin «end» : UInt32) (item item' : Option Traced) : Prop :=
  (∃ early, item = some early ∧ early.begin = begin ∧ early.end = «end») ∧ item' = none

/-- It is traced on both, and the log of the second lacks the first `n` visits. -/
def FirstLonger (n : Nat) (item item' : Option Traced) : Prop :=
  ∃ early late, item = some early ∧ item' = some late ∧ early.Forgets n late

theorem onlyFirst_sampled (symbol : String) {begin «end» : UInt32} (prog : Program)
    (item item' : Option Traced) (s : Sample) (h : OnlyFirst begin «end» item item') :
    OnlyFirst begin «end» (seeTraced symbol prog item (.sampled s))
      (seeTraced symbol prog item' (.sampled s)) := by
  obtain ⟨⟨early, rfl, hbegin, hend⟩, rfl⟩ := h
  exact ⟨⟨_, rfl, hbegin, hend⟩, rfl⟩

/-- Until it is traced there is no log, whatever else is done. -/
theorem onlyFirst_issued {symbol : String} {begin «end» : UInt32} {op : Op}
    (hop : op ≠ .trace symbol) (prog : Program) (item item' : Option Traced) (pc : UInt32)
    (h : OnlyFirst begin «end» item item') :
    OnlyFirst begin «end» (seeTraced symbol prog item (.issued op pc))
      (seeTraced symbol prog item' (.issued op pc)) := by
  cases op with
  | trace symbol' =>
    have hne : symbol' ≠ symbol := fun heq => hop (heq ▸ rfl)
    simpa only [seeTraced, hne, if_false] using h
  | clearTrace symbol' =>
    obtain ⟨⟨early, rfl, hbegin, hend⟩, rfl⟩ := h
    by_cases hsymbol : symbol' = symbol
    · simp only [seeTraced, hsymbol, if_true]
      exact ⟨⟨_, rfl, hbegin, hend⟩, rfl⟩
    · simp only [seeTraced, hsymbol, if_false]
      exact ⟨⟨_, rfl, hbegin, hend⟩, rfl⟩
  | _ => exact h

theorem firstLonger_sampled (symbol : String) {n : Nat} (prog : Program)
    (item item' : Option Traced) (s : Sample) (h : FirstLonger n item item') :
    FirstLonger n (seeTraced symbol prog item (.sampled s))
      (seeTraced symbol prog item' (.sampled s)) := by
  obtain ⟨early, late, rfl, rfl, hforgets⟩ := h
  exact ⟨_, _, rfl, rfl, hforgets.sample s.pc s.cycle⟩

/-- To trace it again changes neither log. -/
theorem firstLonger_issued {symbol : String} {n : Nat} {op : Op} (hop : op ≠ .clearTrace symbol)
    (prog : Program) (item item' : Option Traced) (pc : UInt32) (h : FirstLonger n item item') :
    FirstLonger n (seeTraced symbol prog item (.issued op pc))
      (seeTraced symbol prog item' (.issued op pc)) := by
  cases op with
  | trace symbol' =>
    obtain ⟨early, late, rfl, rfl, hforgets⟩ := h
    simp only [seeTraced, Option.getD_some, ite_self]
    exact ⟨early, late, rfl, rfl, hforgets⟩
  | clearTrace symbol' =>
    have hne : symbol' ≠ symbol := fun heq => hop (heq ▸ rfl)
    simpa only [seeTraced, hne, if_false] using h
  | _ => exact h

/-- From two machines of which one has the longer log, over a session that does not clear it. -/
theorem visitsOf_eq_drop {sim : Simavr ι} {symbol : String} {n : Nat} {m m' m₁ : Mcu ι}
    (hbare : m.bare = m'.bare) (h : FirstLonger n m.traced[symbol]? m'.traced[symbol]?)
    {cmds : List Command} (hkept : .op (.clearTrace symbol) ∉ cmds)
    (hsession : session sim m cmds = .ok m₁) :
    ∃ m₁', session sim m' cmds = .ok m₁' ∧ m₁.bare = m₁'.bare
      ∧ m₁'.visitsOf symbol = (m₁.visitsOf symbol).map (List.drop n) := by
  have hbeside : m.Beside (traceObserver sim symbol) (FirstLonger n) m' := ⟨hbare, h⟩
  have hissued : ∀ (op : Op) (prog : Program) (item item' : Option Traced) (pc : UInt32),
      .op op ∈ cmds → FirstLonger n item item' →
        FirstLonger n (seeTraced symbol prog item (.issued op pc))
          (seeTraced symbol prog item' (.issued op pc)) := by
    intro op prog item item' pc hop
    have hne : op ≠ .clearTrace symbol := fun heq => hkept (heq ▸ hop)
    exact firstLonger_issued hne prog item item' pc
  obtain ⟨m₁', hsession', hbare₁, early, late, hearly, hlate, hforgets⟩ :=
    hbeside.session (inward_traceObserver sim symbol) (firstLonger_sampled symbol) hissued hsession
  have hearly' : m₁.traced[symbol]? = some early := hearly
  have hlate' : m₁'.traced[symbol]? = some late := hlate
  refine ⟨m₁', hsession', hbare₁, ?_⟩
  unfold Mcu.visitsOf
  rw [hearly', hlate', Option.map_some, Option.map_some, Option.map_some, hforgets.visits]

/--
**A trace that begins later holds exactly the later visits.**

A function is traced from the start of a session, and at some point its log has `item.log.count`
visits. A log that is cleared there goes on as the log from the start without those visits, and so
does one for which the function is traced only there, if the log from the start has seen where
control is then, as it has after any instruction. Whatever is done from then on, short of another
clear, the three runs are the same but for the log.
-/
theorem late_eq_drop {sim : Simavr ι} {symbol : String} {m m₁ m₂ : Mcu ι} {item : Traced}
    {cmds₁ cmds₂ : List Command} (hnew : m.traced[symbol]? = none)
    (honce : .op (.trace symbol) ∉ cmds₁) (hstart : session sim (m.trace symbol) cmds₁ = .ok m₁)
    (hitem : m₁.traced[symbol]? = some item) (hrest : session sim m₁ cmds₂ = .ok m₂)
    (hkept : .op (.clearTrace symbol) ∉ cmds₂) :
    (∃ m₂', session sim (m₁.clearTrace symbol) cmds₂ = .ok m₂' ∧ m₂.bare = m₂'.bare
      ∧ m₂'.visitsOf symbol = (m₂.visitsOf symbol).map (List.drop item.log.count))
    ∧ (item.inside = item.contains m₁.avr.pc →
      ∃ m₁' m₂', session sim m cmds₁ = .ok m₁' ∧ session sim (m₁'.trace symbol) cmds₂ = .ok m₂'
        ∧ m₂.bare = m₂'.bare
        ∧ m₂'.visitsOf symbol = (m₂.visitsOf symbol).map (List.drop item.log.count)) := by
  constructor
  · have hbare : m₁.bare = (m₁.clearTrace symbol).bare := rfl
    refine visitsOf_eq_drop hbare ?_ hkept hrest
    rw [traced_clearTrace, if_pos rfl, hitem]
    exact ⟨item, _, rfl, rfl, rfl, rfl, rfl, List.drop_length.symm, Nat.le_refl _⟩
  · intro hseen
    have hbeside : (m.trace symbol).Beside (traceObserver sim symbol)
        (OnlyFirst (Traced.new m.prog symbol 0).begin (Traced.new m.prog symbol 0).end) m := by
      refine ⟨bare_trace m symbol, ⟨Traced.new m.prog symbol m.avr.pc, ?_, rfl, rfl⟩, hnew⟩
      show (m.trace symbol).traced[symbol]? = _
      rw [traced_trace, if_pos rfl, hnew, Option.getD_none]
    obtain ⟨m₁', hsession, hbare, ⟨early, hearly, hbegin, hend⟩, hnone⟩ :=
      hbeside.session (inward_traceObserver sim symbol) (onlyFirst_sampled symbol)
        (fun op prog b b' pc hop => onlyFirst_issued (fun heq => honce (heq ▸ hop)) prog b b' pc)
        hstart
    obtain rfl : item = early := Option.some.inj (hitem.symm.trans hearly)
    have hnone' : m₁'.traced[symbol]? = none := hnone
    have hprog : m₁'.prog = m.prog := prog_of_session hsession
    have havr : m₁'.avr = m₁.avr := by
      obtain ⟨lowestStack, traced, stackWatches, rfl⟩ := exists_of_bare hbare
      rfl
    have hlonger : FirstLonger item.log.count m₁.traced[symbol]?
        (m₁'.trace symbol).traced[symbol]? := by
      rw [traced_trace, if_pos rfl, hnone', Option.getD_none, hitem, hprog, havr]
      refine ⟨item, _, rfl, rfl, hbegin.symm, hend.symm, ?_, List.drop_length.symm, Nat.le_refl _⟩
      rw [hseen]
      unfold Traced.contains
      rw [hbegin, hend]
      rfl
    obtain ⟨m₂', hsession', hbare', hvisits⟩ :=
      visitsOf_eq_drop (hbare.trans (bare_trace m₁' symbol).symm) hlonger hkept hrest
    exact ⟨m₁', m₂', hsession, hsession', hbare', hvisits⟩

/-- In the middle of its second visit the first two are cleared, and only the third is left. -/
theorem late_eq_drop_turns :
    ∃ m₁ m₂, session Isa.simavr (Isa.turns.trace "f") [.op (.run 7)] = .ok m₁
      ∧ session Isa.simavr m₁ [.op (.run 9), .drive 'B' 5 true] = .ok m₂
      ∧ ((∃ m₂', session Isa.simavr (m₁.clearTrace "f") [.op (.run 9), .drive 'B' 5 true] = .ok m₂'
          ∧ m₂.bare = m₂'.bare ∧ m₂'.visitsOf "f" = (m₂.visitsOf "f").map (List.drop 2))
        ∧ ∃ m₁' m₂', session Isa.simavr Isa.turns [.op (.run 7)] = .ok m₁'
          ∧ session Isa.simavr (m₁'.trace "f") [.op (.run 9), .drive 'B' 5 true] = .ok m₂'
          ∧ m₂.bare = m₂'.bare ∧ m₂'.visitsOf "f" = (m₂.visitsOf "f").map (List.drop 2)) := by
  have hitem : ((Isa.turns.trace "f").run Isa.simavr 7).2.traced["f"]?
      = some ⟨4, 8, true, ⟨[⟨2, 5, 3, true⟩, ⟨7, 7, 0, false⟩]⟩⟩ := by decide +kernel
  have hstart : session Isa.simavr (Isa.turns.trace "f") [.op (.run 7)]
      = .ok ((Isa.turns.trace "f").run Isa.simavr 7).2 := rfl
  have honce : .op (.trace "f") ∉ [Command.op (.run 7)] := by decide
  have hkept : .op (.clearTrace "f") ∉ [Command.op (.run 9), .drive 'B' 5 true] := by decide
  obtain ⟨hcleared, hlate⟩ := late_eq_drop rfl honce hstart hitem rfl hkept
  exact ⟨_, _, hstart, rfl, hcleared, hlate (by decide +kernel)⟩

end Avrsim
