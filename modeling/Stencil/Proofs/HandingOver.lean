import Mathlib.Algebra.BigOperators.Group.Finset.Basic
import Mathlib.Tactic.Abel
import Stencil.Proofs.Buffering

/-!
# Writers that hand over their channel

Along a chain of writers one of them has the channel, and the others have handed it over
(`Writers.Linked`). Each step along the chain keeps it so and accounts for the bytes: those that were held and
those that are written are passed on, are held afterwards, or were left with a writer that is dropped
(`Accounts`). Both go from one step to a whole chain by induction on it (`run_accounts`), so that the file
and what was left with the writers that had handed over make up all that was written. If a writer holds
nothing whenever it hands over, nothing is left with it, and the file has everything in order
(`run_of_handsOverNothing`). Nobody is told of the bytes that are left. The main statement is `run_of_chain`,
and `not_taken_of_held` is a chain that loses bytes.
-/

namespace Stencil

namespace Writers

/-! ## Chains -/

/-- What can be done with writers that share a channel. -/
inductive Step where
  | use (i : Nat) (u : Writer.Use)
  | handOver (i target : Nat)
  | drop (i : Nat)

/-- The bytes that are written in a step. -/
def Step.data : Step → Bytes
  | use _ u => u.data
  | handOver .. | drop _ => []

def step (ws : Writers) : Step → Writers × List Event
  | .use i u => ws.use i u
  | .handOver i target => ws.handOver i target
  | .drop i => ws.drop i

def run (ws : Writers) : List Step → Writers × List Event
  | [] => (ws, [])
  | s :: rest =>
    let (ws, events) := ws.step s
    let (ws, more) := ws.run rest
    (ws, events ++ more)

/-- Steps along a chain of writers. Only the last one is written to. It can hand over to another one, which is
the last one then, and is dropped in the end. Those that have handed over can be flushed as long as the last
one is there, and are dropped before or after it. -/
inductive Chain : (last : Nat) → List Step → Prop
  | use {last : Nat} {u : Writer.Use} {rest : List Step} (h : Chain last rest) :
    Chain last (.use last u :: rest)
  | flushSource {last i : Nat} {rest : List Step} (hne : i ≠ last) (h : Chain last rest) :
    Chain last (.use i .flush :: rest)
  | handOver {last target : Nat} {rest : List Step} (hne : target ≠ last) (h : Chain target rest) :
    Chain last (.handOver last target :: rest)
  | dropSource {last i : Nat} {rest : List Step} (hne : i ≠ last) (h : Chain last rest) :
    Chain last (.drop i :: rest)
  | dropLast {last : Nat} (sources : List Nat) : Chain last (.drop last :: sources.map .drop)

/-! ## What the writers hold -/

/-- What one of the writers holds. -/
def holding (members : Std.ExtTreeMap Nat Writer) (i : Nat) : Bytes :=
  match members[i]? with
  | some w => w.held
  | none => []

/-- All that they hold together, in no order. -/
def total (members : Std.ExtTreeMap Nat Writer) : Multiset UInt8 :=
  ∑ i ∈ members.keys.toFinset, (holding members i : Multiset UInt8)

section

variable (members : Std.ExtTreeMap Nat Writer) (i : Nat)

theorem holding_insert (w : Writer) (j : Nat) :
    holding (members.insert i w) j = if j = i then w.held else holding members j := by
  by_cases hj : j = i
  · subst hj
    simp [holding]
  · simp [holding, Std.ExtTreeMap.getElem?_insert, hj, Ne.symm hj]

theorem holding_erase (j : Nat) :
    holding (members.erase i) j = if j = i then [] else holding members j := by
  by_cases hj : j = i
  · subst hj
    simp [holding]
  · simp [holding, Std.ExtTreeMap.getElem?_erase, hj, Ne.symm hj]

/-- The sum can be taken over more writers than there are. -/
theorem total_eq {numbers : Finset Nat} (h : members.keys.toFinset ⊆ numbers) :
    total members = ∑ i ∈ numbers, (holding members i : Multiset UInt8) := by
  refine Finset.sum_subset h fun i _ hi => ?_
  have hnone : members[i]? = none := Std.ExtTreeMap.getElem?_eq_none (by simpa using hi)
  simp [holding, hnone]

/-- Two families of writers of which no more than one holds something else. -/
theorem total_change {members members' : Std.ExtTreeMap Nat Writer} {i : Nat}
    (h : ∀ j, j ≠ i → holding members' j = holding members j) :
    total members' + holding members i = total members + holding members' i := by
  let numbers := insert i (members.keys.toFinset ∪ members'.keys.toFinset)
  have hi : i ∈ numbers := Finset.mem_insert_self i _
  have hrest : ∑ j ∈ numbers.erase i, (holding members' j : Multiset UInt8) =
      ∑ j ∈ numbers.erase i, (holding members j : Multiset UInt8) := by
    refine Finset.sum_congr rfl fun j hj => ?_
    rw [h j (Finset.ne_of_mem_erase hj)]
  have hleft : members.keys.toFinset ⊆ numbers := by
    intro j hj
    exact Finset.mem_insert_of_mem (Finset.mem_union_left _ hj)
  have hright : members'.keys.toFinset ⊆ numbers := by
    intro j hj
    exact Finset.mem_insert_of_mem (Finset.mem_union_right _ hj)
  rw [total_eq members hleft, total_eq members' hright, ← Finset.add_sum_erase _ _ hi,
    ← Finset.add_sum_erase _ _ hi, hrest]
  abel

end

/-! ## What is left with a writer -/

/-- What is left with a writer when it is dropped: all that it holds, if it has handed over. -/
def leftWith (ws : Writers) (i : Nat) : Bytes :=
  match ws.members[i]? with
  | some w => if w.handedOver then w.held else []
  | none => []

/-- What is left in a step. A writer that another one takes the place of is dropped. -/
def left (ws : Writers) : Step → Bytes
  | .use .. => []
  | .handOver _ target => ws.leftWith target
  | .drop i => ws.leftWith i

/-- All that is left in these steps. -/
def lost (ws : Writers) : List Step → Bytes
  | [] => []
  | s :: rest => ws.left s ++ (ws.step s).1.lost rest

/-- Each byte that was held before or is written is passed on, is left or is held afterwards, and it is so
once. -/
def Accounts (members : Std.ExtTreeMap Nat Writer) (data passed left : Bytes)
    (members' : Std.ExtTreeMap Nat Writer) : Prop :=
  (passed : Multiset UInt8) + left + total members' = total members + data

theorem Accounts.trans {m m' m'' : Std.ExtTreeMap Nat Writer}
    {data passed left data' passed' left' : Bytes} (h : Accounts m data passed left m')
    (h' : Accounts m' data' passed' left' m'') :
    Accounts m (data ++ data') (passed ++ passed') (left ++ left') m'' := by
  unfold Accounts at *
  simp only [← Multiset.coe_add]
  calc (passed + passed' + (left + left') + total m'' : Multiset UInt8)
    _ = passed + left + (passed' + left' + total m'') := by abel
    _ = passed + left + total m' + data' := by rw [h', ← add_assoc]
    _ = total m + (data + data') := by rw [h, add_assoc]

theorem accounts_of_change {m m' : Std.ExtTreeMap Nat Writer} {data passed left : Bytes} {i : Nat}
    (h : ∀ j, j ≠ i → holding m' j = holding m j)
    (hi : (passed + left + holding m' i : Multiset UInt8) = holding m i + data) :
    Accounts m data passed left m' := by
  have hchange := total_change h
  apply add_right_cancel (b := (holding m i : Multiset UInt8))
  calc (passed + left + total m' + holding m i : Multiset UInt8)
    _ = total m + (passed + left + holding m' i) := by
      rw [add_assoc, hchange]
      abel
    _ = total m + data + holding m i := by
      rw [hi]
      abel

/-! ## One step -/

/-- One of the writers has the channel, and the others have handed it over. -/
structure Linked (ws : Writers) (last : Nat) (w : Writer) : Prop where
  member : ws.members[last]? = some w
  owner : w.handedOver = false
  sources : ∀ i w', i ≠ last → ws.members[i]? = some w' → w'.handedOver = true

/-- All the writers have handed over. -/
def Released (ws : Writers) : Prop :=
  ∀ (i : Nat) (w : Writer), ws.members[i]? = some w → w.handedOver = true

theorem of_getElem?_erase {members : Std.ExtTreeMap Nat Writer} {i j : Nat} {w : Writer}
    (h : (members.erase i)[j]? = some w) : j ≠ i ∧ members[j]? = some w := by
  by_cases hji : j = i
  · subst hji
    simp at h
  · refine ⟨hji, ?_⟩
    simpa [Std.ExtTreeMap.getElem?_erase, Ne.symm hji] using h

theorem of_getElem?_insert {members : Std.ExtTreeMap Nat Writer} {i j : Nat} {new w : Writer}
    (hji : j ≠ i) (h : (members.insert i new)[j]? = some w) : members[j]? = some w := by
  simpa [Std.ExtTreeMap.getElem?_insert, Ne.symm hji] using h

theorem linked_single (channel : Channel) : (single channel).Linked 0 {} where
  member := getElem?_single channel
  owner := rfl
  sources i w' hi hw' := by
    have hw' := of_getElem?_insert hi hw'
    simp at hw'

section

variable {ws : Writers} {i : Nat}

theorem use_of_none (h : ws.members[i]? = none) (u : Writer.Use) : ws.use i u = (ws, []) := by
  cases u <;> simp [use, write, flush, h]

/-- A writer that has handed over is dropped without anything else. -/
theorem drop_of_handedOver (h : ∀ w, ws.members[i]? = some w → w.handedOver = true) :
    ws.drop i = ({ channel := ws.channel, members := ws.members.erase i }, []) := by
  cases hi : ws.members[i]? with
  | none =>
    have hmembers : ws.members.erase i = ws.members := by
      apply Std.ExtTreeMap.ext_getElem?
      grind
    simp only [drop, hi, hmembers]
  | some w => simp only [drop, hi, h w hi, if_true]

theorem leftWith_of_handedOver (h : ∀ w, ws.members[i]? = some w → w.handedOver = true) :
    ws.leftWith i = holding ws.members i := by
  rw [leftWith, holding]
  cases hi : ws.members[i]? with
  | none => rfl
  | some w => simp only [h w hi, if_true]

/-- What a writer holds that has handed over is left when it is dropped. -/
theorem accounts_drop (h : ∀ w, ws.members[i]? = some w → w.handedOver = true) :
    Accounts ws.members [] [] (ws.leftWith i) (ws.drop i).1.members := by
  rw [drop_of_handedOver h]
  refine accounts_of_change (i := i) (fun j hj => by rw [holding_erase, if_neg hj]) ?_
  rw [holding_erase, if_pos rfl, leftWith_of_handedOver h, Multiset.coe_nil, zero_add]

/-- A file gets what a writer passes on that is used. -/
theorem use_of_takes {w : Writer} (h : ws.members[i]? = some w) (u : Writer.Use) {place : Location}
    {content : Bytes} (htakes : ws.channel.Takes place content) :
    (ws.use i u).1.channel.Takes place (content ++ (w.use u).2.flatten) ∧ (ws.use i u).2 = [] ∧
      Accounts ws.members u.data (w.use u).2.flatten [] (ws.use i u).1.members := by
  obtain ⟨htakes', hquiet, -⟩ := htakes.writeAll (w.use u).2
  rw [use_eq h]
  refine ⟨htakes', hquiet, ?_⟩
  refine accounts_of_change (i := i) (fun j hj => (holding_insert _ _ _ _).trans (if_neg hj)) ?_
  have hnew : holding (ws.members.insert i (w.use u).1) i = (w.use u).1.held := by
    rw [holding_insert, if_pos rfl]
  have hold : holding ws.members i = w.held := by rw [holding, h]
  rw [hold, Multiset.coe_nil, add_zero]
  show ((w.use u).2.flatten + holding (ws.members.insert i (w.use u).1) i : Multiset UInt8) = _
  rw [hnew, Multiset.coe_add, Multiset.coe_add, Writer.append_use]

theorem flush_of_takes (i : Nat) {place : Location} {content : Bytes}
    (htakes : ws.channel.Takes place content) :
    ∃ passed, (ws.use i .flush).1.channel.Takes place (content ++ passed) ∧ (ws.use i .flush).2 = [] ∧
      Accounts ws.members [] passed [] (ws.use i .flush).1.members := by
  cases hi : ws.members[i]? with
  | none =>
    rw [use_of_none hi]
    exact ⟨[], by rwa [List.append_nil], rfl, by simp [Accounts]⟩
  | some v => exact ⟨_, use_of_takes hi .flush htakes⟩

end

namespace Linked

variable {ws : Writers} {last : Nat} {w : Writer} (h : ws.Linked last w)
include h

theorem use (u : Writer.Use) : (ws.use last u).1.Linked last (w.use u).1 := by
  rw [use_eq h.member]
  refine ⟨ws.getElem?_update last _, (w.handedOver_use u).trans h.owner, fun i w' hi hw' => ?_⟩
  exact h.sources i w' hi (of_getElem?_insert hi hw')

theorem useSource {i : Nat} (hne : i ≠ last) (u : Writer.Use) : (ws.use i u).1.Linked last w := by
  cases hi : ws.members[i]? with
  | none =>
    rw [use_of_none hi]
    exact h
  | some v =>
    rw [use_eq hi]
    refine ⟨?_, h.owner, fun j w' hj hw' => ?_⟩
    · simpa [update, Std.ExtTreeMap.getElem?_insert, hne] using h.member
    · by_cases hji : j = i
      · subst hji
        obtain rfl : (v.use u).1 = w' := by simpa [update] using hw'
        exact (v.handedOver_use u).trans (h.sources j v hj hi)
      · exact h.sources j w' hj (of_getElem?_insert hji hw')

/-- The one that hands over keeps what it holds. -/
theorem handOver_eq {target : Nat} (hne : target ≠ last) :
    ws.handOver last target =
      ({ channel := ws.channel,
         members := (ws.members.insert last { w with handedOver := true }).insert target {} }, []) := by
  have htarget : ∀ w', (ws.members.insert last { w with handedOver := true })[target]? = some w' →
      w'.handedOver = true := by
    intro w' hw'
    exact h.sources target w' hne (of_getElem?_insert hne hw')
  have hmembers : ((ws.members.insert last { w with handedOver := true }).erase target).insert target {} =
      (ws.members.insert last { w with handedOver := true }).insert target ({} : Writer) := by
    apply Std.ExtTreeMap.ext_getElem?
    grind
  simp only [Writers.handOver, h.member]
  rw [drop_of_handedOver htarget]
  simp only [hmembers]

theorem handOver {target : Nat} (hne : target ≠ last) :
    (ws.handOver last target).1.Linked target {} := by
  rw [h.handOver_eq hne]
  refine ⟨Std.ExtTreeMap.getElem?_insert_self, rfl, fun i w' hi hw' => ?_⟩
  have hw' := of_getElem?_insert hi hw'
  by_cases hlast : i = last
  · subst hlast
    obtain rfl : { w with handedOver := true } = w' := by
      simpa using hw'
    rfl
  · exact h.sources i w' hlast (of_getElem?_insert hlast hw')

theorem accounts_handOver {target : Nat} (hne : target ≠ last) :
    Accounts ws.members [] [] (ws.leftWith target) (ws.handOver last target).1.members := by
  rw [h.handOver_eq hne]
  refine accounts_of_change (i := target) (fun j hj => ?_) ?_
  · rw [holding_insert, if_neg hj, holding_insert]
    split
    · subst j
      rw [holding, h.member]
    · rfl
  · rw [holding_insert, if_pos rfl, leftWith_of_handedOver fun w' => h.sources target w' hne,
      Multiset.coe_nil, zero_add]

theorem dropSource {i : Nat} (hne : i ≠ last) : (ws.drop i).1.Linked last w := by
  rw [drop_of_handedOver fun w' => h.sources i w' hne]
  refine ⟨?_, h.owner, fun j w' hj hw' => ?_⟩
  · simpa [Std.ExtTreeMap.getElem?_erase, hne] using h.member
  · exact h.sources j w' hj (of_getElem?_erase hw').2

theorem dropLast : (ws.drop last).1.Released := by
  rw [drop_eq h.member h.owner]
  intro i w' hw'
  obtain ⟨hi, hw'⟩ := of_getElem?_erase hw'
  exact h.sources i w' hi hw'

/-- The last one flushes what it holds when it is dropped, and leaves nothing. -/
theorem dropLast_of_takes {place : Location} {content : Bytes} (htakes : ws.channel.Takes place content) :
    (ws.drop last).1.channel.disk.node? place = some (.file (content ++ w.held)) ∧
      (ws.drop last).2 = [] ∧
      Accounts ws.members [] w.held (ws.leftWith last) (ws.drop last).1.members := by
  obtain ⟨htakes', hquiet, -⟩ := htakes.writeAll w.flush.2
  rw [Writer.flatten_flush] at htakes'
  rw [drop_eq h.member h.owner]
  refine ⟨?_, hquiet, ?_⟩
  · dsimp only
    rw [Channel.disk_close]
    exact htakes'.node
  refine accounts_of_change (i := last) (fun j hj => by rw [holding_erase, if_neg hj]) ?_
  have hleft : ws.leftWith last = [] := by simp [leftWith, h.member, h.owner]
  have hold : holding ws.members last = w.held := by rw [holding, h.member]
  rw [holding_erase, if_pos rfl, hleft, hold, Multiset.coe_nil, add_zero]

end Linked

/-! ## Chains that are run -/

/-- All that is written in these steps. -/
def written (steps : List Step) : Bytes := steps.flatMap Step.data

/-- Nothing is told in these steps, and the file takes some bytes, with which all are accounted for. -/
def RunAccounts (ws : Writers) (steps : List Step) (place : Location) (content : Bytes) : Prop :=
  (ws.run steps).2 = [] ∧
    ∃ taken, (ws.run steps).1.channel.disk.node? place = some (.file (content ++ taken)) ∧
      Accounts ws.members (written steps) taken (ws.lost steps) (ws.run steps).1.members

section

variable {ws : Writers} {place : Location} {content : Bytes}

theorem RunAccounts.cons {s : Step} {rest : List Step} {passed : Bytes} (hquiet : (ws.step s).2 = [])
    (haccounts : Accounts ws.members s.data passed (ws.left s) (ws.step s).1.members)
    (h : (ws.step s).1.RunAccounts rest place (content ++ passed)) :
    ws.RunAccounts (s :: rest) place content := by
  obtain ⟨hevents, taken, hnode, hrest⟩ := h
  refine ⟨?_, passed ++ taken, ?_, haccounts.trans hrest⟩
  · show (ws.step s).2 ++ ((ws.step s).1.run rest).2 = []
    rw [hquiet, hevents]
    rfl
  · rw [← List.append_assoc]
    exact hnode

theorem Released.drop (h : ws.Released) (i : Nat) :
    ws.step (.drop i) = ({ channel := ws.channel, members := ws.members.erase i }, []) ∧
      Released { channel := ws.channel, members := ws.members.erase i } := by
  refine ⟨drop_of_handedOver (h i), fun j w hw => ?_⟩
  exact h j w (of_getElem?_erase hw).2

theorem channel_run_of_released (h : ws.Released) (sources : List Nat) :
    (ws.run (sources.map .drop)).1.channel = ws.channel := by
  induction sources generalizing ws with
  | nil => rfl
  | cons i rest ih =>
    obtain ⟨hdrop, hrest⟩ := h.drop i
    rw [List.map_cons, run, hdrop]
    exact ih hrest

theorem run_of_released (h : ws.Released) (hnode : ws.channel.disk.node? place = some (.file content))
    (sources : List Nat) : ws.RunAccounts (sources.map .drop) place content := by
  induction sources generalizing ws with
  | nil =>
    refine ⟨rfl, [], ?_, by simp [Accounts, written, lost, run]⟩
    rw [List.append_nil]
    exact hnode
  | cons i rest ih =>
    obtain ⟨hdrop, hrest⟩ := h.drop i
    refine RunAccounts.cons (s := .drop i) (by rw [hdrop]) (accounts_drop (h i)) ?_
    rw [hdrop, List.append_nil]
    exact ih hrest hnode

/-- Induction on the chain: the file takes what is passed on, and all bytes are accounted for. -/
theorem run_accounts {last : Nat} {steps : List Step} (hchain : Chain last steps) {w : Writer}
    (h : ws.Linked last w) (htakes : ws.channel.Takes place content) :
    ws.RunAccounts steps place content := by
  induction hchain generalizing ws w content with
  | @use last u rest _ ih =>
    obtain ⟨htakes', hquiet, haccounts⟩ := use_of_takes h.member u htakes
    exact RunAccounts.cons hquiet haccounts (ih (h.use u) htakes')
  | @flushSource last i rest hne _ ih =>
    obtain ⟨passed, htakes', hquiet, haccounts⟩ := flush_of_takes i htakes
    exact RunAccounts.cons hquiet haccounts (ih (h.useSource hne .flush) htakes')
  | @handOver last target rest hne _ ih =>
    have hhand := h.handOver_eq hne
    have haccounts := h.accounts_handOver hne
    refine RunAccounts.cons (s := .handOver last target) (by rw [step, hhand]) haccounts ?_
    rw [List.append_nil]
    exact ih (h.handOver hne) (by rwa [step, hhand])
  | @dropSource last i rest hne _ ih =>
    have hsource : ∀ w', ws.members[i]? = some w' → w'.handedOver = true := fun w' => h.sources i w' hne
    have hdrop := drop_of_handedOver hsource
    have haccounts := accounts_drop hsource
    refine RunAccounts.cons (s := .drop i) (by rw [step, hdrop]) haccounts ?_
    rw [List.append_nil]
    exact ih (h.dropSource hne) (by rwa [step, hdrop])
  | @dropLast last sources =>
    obtain ⟨hnode, hquiet, haccounts⟩ := h.dropLast_of_takes htakes
    exact RunAccounts.cons hquiet haccounts (run_of_released h.dropLast hnode sources)

/-- What a writer holds that hands over in a step. -/
def handingOver (ws : Writers) : Step → Bytes
  | .handOver i _ => holding ws.members i
  | .use .. | .drop _ => []

/-- Whenever a writer hands over in these steps, it holds nothing. -/
def HandsOverNothing (ws : Writers) : List Step → Prop
  | [] => True
  | s :: rest => ws.handingOver s = [] ∧ (ws.step s).1.HandsOverNothing rest

instance decidableHandsOverNothing : (ws : Writers) → (steps : List Step) →
    Decidable (ws.HandsOverNothing steps)
  | _, [] => inferInstanceAs (Decidable True)
  | ws, s :: rest =>
    have := decidableHandsOverNothing (ws.step s).1 rest
    inferInstanceAs (Decidable (_ ∧ _))

theorem flush_of_holding {i : Nat} (h : holding ws.members i = []) : ws.use i .flush = (ws, []) := by
  cases hi : ws.members[i]? with
  | none => exact use_of_none hi .flush
  | some v =>
    have hheld : v.held = [] := by rwa [holding, hi] at h
    have hflush : v.use .flush = (v, []) := by
      obtain ⟨held, handedOver⟩ := v
      obtain rfl : held = [] := hheld
      rfl
    rw [use_eq hi, hflush]
    exact update_self hi

/-- Induction on the chain: as long as those that have handed over hold nothing, what the last one holds goes
behind what the file has. -/
theorem run_of_handsOverNothing {last : Nat} {steps : List Step} (hchain : Chain last steps) {w : Writer}
    (h : ws.Linked last w) (htakes : ws.channel.Takes place content)
    (hsources : ∀ i, i ≠ last → holding ws.members i = []) (hempty : ws.HandsOverNothing steps) :
    (ws.run steps).1.channel.disk.node? place = some (.file (content ++ w.held ++ written steps)) := by
  induction hchain generalizing ws w content with
  | @use last u rest _ ih =>
    obtain ⟨htakes', -, -⟩ := use_of_takes h.member u htakes
    have hsources' : ∀ i, i ≠ last → holding (ws.use last u).1.members i = [] := by
      intro i hi
      rw [use_eq h.member]
      exact (holding_insert _ _ _ _).trans ((if_neg hi).trans (hsources i hi))
    have hnode := ih (h.use u) htakes' hsources' hempty.2
    rw [List.append_assoc content, Writer.append_use, ← List.append_assoc, List.append_assoc] at hnode
    exact hnode
  | @flushSource last i rest hne _ ih =>
    have hflush : ws.step (.use i .flush) = (ws, []) := flush_of_holding (hsources i hne)
    have hrest := hempty.2
    rw [hflush] at hrest
    rw [run, hflush]
    exact ih h htakes hsources hrest
  | @handOver last target rest hne _ ih =>
    have hhand := h.handOver_eq hne
    have hheld : holding ws.members last = [] := hempty.1
    have hw : w.held = [] := by rwa [holding, h.member] at hheld
    have hsources' : ∀ i, i ≠ target → holding (ws.handOver last target).1.members i = [] := by
      intro i hi
      rw [hhand, holding_insert, if_neg hi, holding_insert]
      split
      · exact hw
      · exact hsources i ‹_›
    rw [hw, List.append_nil]
    have hnode := ih (h.handOver hne) (by rwa [hhand]) hsources' hempty.2
    rw [List.append_nil] at hnode
    exact hnode
  | @dropSource last i rest hne _ ih =>
    have hdrop := drop_of_handedOver fun w' => h.sources i w' hne
    have hsources' : ∀ j, j ≠ last → holding (ws.drop i).1.members j = [] := by
      intro j hj
      rw [hdrop, holding_erase]
      split
      · rfl
      · exact hsources j hj
    have htakes' : (ws.drop i).1.channel.Takes place content := by rwa [hdrop]
    exact ih (h.dropSource hne) htakes' hsources' hempty.2
  | @dropLast last sources =>
    obtain ⟨hnode, -, -⟩ := h.dropLast_of_takes htakes
    have hwritten : written (.drop last :: sources.map .drop) = [] := by
      simp [written, Step.data]
    have hchannel := channel_run_of_released h.dropLast sources
    rw [hwritten, List.append_nil, run, step, hchannel]
    exact hnode

end

/-- When all the writers of a chain on a file are dropped, nothing was told. Each byte that was written is in
the file once, or was left once with a writer that was dropped after it had handed over; if every writer held
nothing when it handed over, the file has got all that was written, in order. -/
theorem run_of_chain {channel : Channel} {place : Location} {content : Bytes}
    (htakes : channel.Takes place content) {steps : List Step} (hchain : Chain 0 steps)
    (hdropped : ((single channel).run steps).1.members.isEmpty = true) :
    ((single channel).run steps).2 = [] ∧
      ∃ taken, ((single channel).run steps).1.channel.disk.node? place = some (.file (content ++ taken)) ∧
        (taken ++ (single channel).lost steps).Perm (written steps) ∧
        ((single channel).HandsOverNothing steps → taken = written steps) := by
  have hlinked := linked_single channel
  have hnothing : ∀ i, holding (single channel).members i = [] := by
    intro i
    rw [single, holding_insert]
    split
    · rfl
    · simp [holding]
  obtain ⟨hevents, taken, hnode, haccounts⟩ := run_accounts hchain hlinked htakes
  refine ⟨hevents, taken, hnode, ?_, fun hempty => ?_⟩
  · have hbefore : total (single channel).members = 0 := by
      refine Finset.sum_eq_zero fun i _ => ?_
      rw [hnothing i, Multiset.coe_nil]
    have hafter : total ((single channel).run steps).1.members = 0 := by
      rw [Std.ExtTreeMap.isEmpty_iff.mp hdropped]
      rfl
    rw [Accounts, hbefore, hafter, add_zero, zero_add, Multiset.coe_add] at haccounts
    exact Multiset.coe_eq_coe.mp haccounts
  · have hall := run_of_handsOverNothing hchain hlinked htakes (fun i _ => hnothing i) hempty
    rw [hnode, List.append_nil] at hall
    exact List.append_cancel_left (Node.file.inj (Option.some.inj hall))

/-- Two of three writers flush before they hand over, and the third one that is dropped last has all. -/
theorem run_of_chain_of_flushed :
    let channel := (Channel.create .empty (Bytes.ofString "out")).1
    let place := [Bytes.ofString "work", Bytes.ofString "out"]
    let steps : List Step :=
      [.use 0 (.write (Bytes.ofString "abc")), .use 0 .flush, .handOver 0 1,
        .use 1 (.write (List.replicate 5000 0x78)), .drop 0, .use 1 .flush, .handOver 1 2,
        .use 2 (.write (Bytes.ofString "d")), .use 1 .flush, .drop 2, .drop 1]
    channel.Takes place [] ∧ Chain 0 steps ∧ ((single channel).run steps).1.members.isEmpty = true ∧
      (single channel).HandsOverNothing steps ∧
      ∃ taken, ((single channel).run steps).1.channel.disk.node? place = some (.file taken) ∧
        taken = written steps := by
  intro channel place steps
  have hfacts : (channel.sink? = some (.file place) ∧ channel.disk.node? place = some (.file [])) ∧
      ((single channel).run steps).1.members.isEmpty = true ∧ (single channel).HandsOverNothing steps := by
    decide +kernel
  obtain ⟨⟨hsink, hplace⟩, hdropped, hempty⟩ := hfacts
  have htakes : channel.Takes place [] := ⟨hsink, rfl, hplace, fun _ _ hgiven => hgiven⟩
  have hchain : Chain 0 steps :=
    .use <| .use <| .handOver (by decide) <| .use <| .dropSource (by decide) <| .use <|
      .handOver (by decide) <| .use <| .flushSource (by decide) <| .dropLast [1]
  obtain ⟨-, taken, hnode, -, hall⟩ := run_of_chain htakes hchain hdropped
  exact ⟨htakes, hchain, hdropped, hempty, taken, hnode, hall hempty⟩

/-- A writer that holds three bytes hands over. They never get to the file, and nobody is told. -/
theorem not_taken_of_held :
    let channel := (Channel.create .empty (Bytes.ofString "out.txt")).1
    let place := [Bytes.ofString "work", Bytes.ofString "out.txt"]
    let steps : List Step :=
      [.use 0 (.write (Bytes.ofString "abc")), .handOver 0 1, .use 1 (.write (Bytes.ofString "d")),
        .drop 0, .drop 1]
    channel.Takes place [] ∧ Chain 0 steps ∧ ((single channel).run steps).1.members.isEmpty = true ∧
      written steps = Bytes.ofString "abcd" ∧
      ((single channel).run steps).1.channel.disk.node? place = some (.file (Bytes.ofString "d")) ∧
      ((single channel).run steps).2 = [] := by
  intro channel place steps
  have hfacts : (channel.sink? = some (.file place) ∧ channel.disk.node? place = some (.file [])) ∧
      ((single channel).run steps).1.members.isEmpty = true ∧ written steps = Bytes.ofString "abcd" ∧
      ((single channel).run steps).1.channel.disk.node? place = some (.file (Bytes.ofString "d")) ∧
      ((single channel).run steps).2 = [] := by
    decide +kernel
  have hchain : Chain 0 steps :=
    .use <| .handOver (by decide) <| .use <| .dropSource (by decide) <| .dropLast []
  exact ⟨⟨hfacts.1.1, rfl, hfacts.1.2, fun _ _ hgiven => hgiven⟩, hchain, hfacts.2⟩

end Writers

end Stencil
