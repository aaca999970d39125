/-
Nodes that no copy comes to.

Only three kinds of change bring a copy to a node: a move, a slot that is filled and one that is
created.  All others leave a copy where it is or take it away, and none of them makes it start
over.  A decider that refuses a node therefore keeps everything new from it: past the high
watermark of its disk whatever the trigger says, for the deciders can say no to commands, too,
and past the low one as long as there are no commands.

* `Layout.NothingNew` — no copy came to the node, and none began to be filled there;
* `View.nothingNew_onView`, `Runs.nothingNew` — one change, and a run of changes;
* `not_accepts_of_past`, `not_approves_of_past` — what the watermarks refuse;
* `Course.nothingNew` — a whole pass.
-/
import ShardAllocation.Proofs.Pass.Log
import ShardAllocation.Proofs.Pass.Phases
import ShardAllocation.Proofs.Pass.Strictness

namespace ShardAllocation

/-! ### Layouts -/

namespace Layout

/-- Every copy that `g` has on the node was there in `f`, and is being filled only if it was. -/
def NothingNew (n : NodeId) (f g : Layout) : Prop :=
  ∀ d, g n = some d → ∃ c, f n = some c ∧ (d.state = .initializing → c.state = .initializing)

namespace NothingNew

variable {s : ShardId} {f g h : Layout} {n k j : NodeId} {c : Copy}

theorem of_eq (heq : g n = f n) : NothingNew n f g := fun d hd => ⟨d, heq ▸ hd, id⟩

theorem trans (hfg : NothingNew n f g) (hgh : NothingNew n g h) : NothingNew n f h := by
  intro e he
  obtain ⟨d, hd, hstate⟩ := hgh e he
  obtain ⟨c, hc, hbefore⟩ := hfg d hd
  exact ⟨c, hc, hbefore ∘ hstate⟩

theorem settle (hc : f k = some c) : NothingNew n f (f.settle k c) := by
  intro d hd
  rcases settle_eq_some.mp hd with ⟨rfl, rfl⟩ | ⟨-, -, hd⟩
  · exact ⟨c, hc, fun hinit => by cases hinit⟩
  · exact ⟨d, hd, id⟩

theorem vacate (f : Layout) (k : NodeId) (c : Copy) : NothingNew n f (f.vacate k c) :=
  fun d hd => ⟨d, (vacate_eq_some.mp hd).2.2, id⟩

theorem promote (f : Layout) (k : NodeId) (c : Copy) : NothingNew n f (f.promote k c) := by
  intro d hd
  obtain ⟨e, he, rfl⟩ := promote_eq_some.mp hd
  refine ⟨e, he, fun hinit => ?_⟩
  split at hinit <;> exact hinit

/-- A move begins that goes elsewhere. -/
theorem depart (hc : f k = some c) (hj : j ≠ n) : NothingNew n f (f.depart k j c) := by
  intro d hd
  rcases depart_eq_some.mp hd with ⟨rfl, rfl⟩ | ⟨-, heq, -⟩ | ⟨-, -, hd⟩
  · exact ⟨c, hc, fun hinit => by cases hinit⟩
  · exact absurd heq.symm hj
  · exact ⟨d, hd, id⟩

theorem fill (f : Layout) (c : Copy) (hk : k ≠ n) : NothingNew n f (f.fill k c) :=
  of_eq (if_neg hk.symm)

end NothingNew

end Layout

/-- The node that a copy comes to in a noted step. -/
def Transition.target? : Transition → Option NodeId
  | initialized _ n _ _ | relocationStarted _ _ n _ => some n
  | _ => none

namespace Layout

variable {s : ShardId} {f : Layout} {n : NodeId}

/-- A noted step that brings no copy to a node brings nothing new there. -/
theorem nothingNew_replay {t : Transition} (hn : t.target? ≠ some n) :
    NothingNew n f (f.replay s t) := by
  have hheld : ∀ {k : NodeId} {act : Copy → Layout}, (∀ c, f k = some c → NothingNew n f (act c)) →
      NothingNew n f ((f k).elim f act) := by
    intro k act hact
    cases hc : f k with
    | none => exact .of_eq rfl
    | some c => exact hact c hc
  have htarget : ∀ {k : NodeId}, some k ≠ some n → k ≠ n := fun hk heq => hk (congrArg some heq)
  unfold replay
  split
  swap
  · exact .of_eq rfl
  cases t with
  | initialized _ k => exact .fill f _ (htarget hn)
  | started _ k => exact hheld fun c hc => .settle hc
  | relocationStarted _ k j => exact hheld fun c hc => .depart hc (htarget hn)
  | relocationCancelled _ k => exact hheld fun c hc => .settle hc
  | unassigned _ k => exact hheld fun c _ => .vacate f k c
  | promoted _ k => exact hheld fun c _ => .promote f k c
  | dropped _ k => exact hheld fun c _ => .vacate f k c

theorem nothingNew_foldl_replay {log : List Transition} (hn : ∀ t ∈ log, t.target? ≠ some n) :
    NothingNew n f (log.foldl (replay s) f) := by
  induction log generalizing f with
  | nil => exact .of_eq rfl
  | cons t rest ih =>
    have hfirst : NothingNew n f (f.replay s t) := nothingNew_replay (hn t List.mem_cons_self)
    exact hfirst.trans (ih fun u hu => hn u (List.mem_cons_of_mem t hu))

end Layout

/-! ### Changes -/

/-- The node that a copy comes to. -/
def Change.target? : Change → Option NodeId
  | relocate _ _ n | install _ n | create _ n => some n
  | _ => none

namespace View

variable {v : View} {m : Metadata} {ch : Change} {n : NodeId} {t : Transition}

theorem target?_of_mem_promotions {s : ShardId} (h : t ∈ v.promotions s) : t.target? = none := by
  unfold promotions at h
  split at h
  · rw [List.mem_singleton.mp h]
    rfl
  · cases h

/-- A change notes where its copy comes to. -/
theorem target?_of_mem_notes (h : t ∈ ch.notes v) (hn : t.target? = some n) :
    ch.target? = some n := by
  cases ch with
  | surrender c k info =>
    rcases List.mem_cons.mp h with rfl | h
    · cases hn
    · rw [target?_of_mem_promotions h] at hn
      cases hn
  | handOver c k =>
    rcases List.mem_cons.mp h with rfl | h
    · cases hn
    · rw [target?_of_mem_promotions h] at hn
      cases hn
  | forget k => cases h
  | record s a => cases h
  | _ =>
    rw [List.mem_singleton.mp h] at hn
    exact hn

/-- A change that brings no copy to a node brings nothing new there. -/
theorem nothingNew_onView (h : v.Consistent) (hfit : ch.Fits m v) (hn : ch.target? ≠ some n)
    (s : ShardId) : Layout.NothingNew n (v.copyOn? s) ((ch.onView v).copyOn? s) := by
  rw [replay_onView h hfit]
  exact Layout.nothingNew_foldl_replay fun t ht heq => hn (target?_of_mem_notes ht heq)

end View

namespace Pass

variable {p q m l k : Pass} {P : Policy} {G : Pass → Change → Prop} {ds : List Decider}
variable {n : NodeId} {c : Copy} {ch : Change}

/-- A run of changes that all go elsewhere brings nothing new to a node. -/
theorem Runs.nothingNew (h : Runs G p q) (hp : p.Sound)
    (hG : ∀ r ch, Runs G p r → G r ch → ch.target? ≠ some n) (s : ShardId) :
    Layout.NothingNew n (p.view.copyOn? s) (q.view.copyOn? s) := by
  refine h.invariant_of_sound hp
    (I := fun r => Layout.NothingNew n (p.view.copyOn? s) (r.view.copyOn? s)) (.of_eq rfl)
    fun r ch hrun hr hkept hfit hguard => hkept.trans ?_
  exact View.nothingNew_onView hr.view.consistent hfit (hG r ch hrun hguard) s

theorem Policy.Completes.target?_eq (h : P.Completes p ch) : ch.target? = none := by
  cases ch with
  | start c k => rfl
  | _ => exact h.elim

/-- Copies come only where no decider says no. -/
theorem Policy.Admits.accepts (h : P.Admits p ch) (hn : ch.target? = some n) :
    ∃ c, Accepts P.deciders p c n := by
  cases ch with
  | relocate c k j =>
    obtain rfl : j = n := Option.some_inj.mp hn
    exact ⟨c, h⟩
  | install c j =>
    obtain rfl : j = n := Option.some_inj.mp hn
    exact ⟨c, h.1⟩
  | create c j =>
    obtain rfl : j = n := Option.some_inj.mp hn
    exact ⟨c, h⟩
  | _ => cases hn

/-- The placing phases bring copies only where every decider says yes. -/
theorem Policy.Places.approves (h : P.Places p ch) (hn : ch.target? = some n) :
    ∃ c, Approves P.deciders p c n := by
  cases ch with
  | relocate c k j =>
    obtain rfl : j = n := Option.some_inj.mp hn
    exact ⟨c, h.2.1⟩
  | install c j =>
    obtain rfl : j = n := Option.some_inj.mp hn
    exact ⟨c, h.2⟩
  | create c j =>
    obtain rfl : j = n := Option.some_inj.mp hn
    exact ⟨c, h.2⟩
  | _ => cases hn

theorem Policy.Clears.target?_eq (h : P.Clears p ch) : ch.target? = none := by
  cases ch with
  | relocate | install | create => exact h.2.elim
  | _ => rfl

/-! ### Watermarks -/

/-- The disk of the node is watched, and past the watermark. -/
def Past (p : Pass) (w : Watermark) (n : NodeId) : Prop :=
  ∃ usage, Decider.watchedUsage ⟨n, .empty⟩ p = .ok usage ∧ w.isExceededBy usage = true

theorem past_congr (hsettings : q.settings = p.settings)
    (hmembers : q.state.members = p.state.members) : Past q = Past p := by
  funext w n
  rw [Past, Past, Decider.watchedUsage, Decider.watchedUsage, diskUsage?, diskUsage?, hsettings,
    hmembers]

/-- Past the high watermark the decider for disks says no. -/
theorem diskThreshold_eq_no {node : DataNode}
    (h : p.Past p.settings.disk.highWatermark node.id) :
    (Decider.diskThreshold.canAllocate c node p).decision = .no := by
  obtain ⟨usage, husage, hpast⟩ := h
  have husage : Decider.watchedUsage node p = .ok usage := husage
  simp only [Decider.diskThreshold, husage, if_pos hpast]

/-- Past the low watermark it does not say yes. -/
theorem diskThreshold_ne_yes {node : DataNode}
    (h : p.Past p.settings.disk.lowWatermark node.id) :
    (Decider.diskThreshold.canAllocate c node p).decision ≠ .yes := by
  obtain ⟨usage, husage, hpast⟩ := h
  have husage : Decider.watchedUsage node p = .ok usage := husage
  simp only [Decider.diskThreshold, husage, if_pos hpast]
  split <;> exact fun hyes => by cases hyes

theorem not_accepts_of_past (hds : Decider.diskThreshold ∈ ds)
    (h : p.Past p.settings.disk.highWatermark n) : ¬ Accepts ds p c n := by
  rintro ⟨node, hnode, hno⟩
  obtain ⟨rfl, -⟩ := node?_eq_some hnode
  rw [Decider.allocation, Decider.decision_combine] at hno
  exact Decider.worstOf_ne_no hno _ (List.mem_map_of_mem hds) (diskThreshold_eq_no h)

theorem not_approves_of_past (hds : Decider.diskThreshold ∈ ds)
    (h : p.Past p.settings.disk.lowWatermark n) : ¬ Approves ds p c n := by
  rintro ⟨node, hnode, hyes⟩
  obtain ⟨rfl, -⟩ := node?_eq_some hnode
  exact diskThreshold_ne_yes h (Decider.allocation_eq_yes_iff.mp hyes _ hds)

/-- A pass brings nothing new to a node past the high watermark, nor without commands to one past
the low watermark. -/
theorem Course.nothingNew (h : Course P p m l k q) (hp : p.Sound)
    (hds : Decider.diskThreshold ∈ P.deciders)
    (hn : p.Past p.settings.disk.highWatermark n ∨
      P.trigger.commands = [] ∧ p.Past p.settings.disk.lowWatermark n) (s : ShardId) :
    Layout.NothingNew n (p.view.copyOn? s) (q.view.copyOn? s) := by
  have hm := h.completes.sound hp
  obtain ⟨hl, -, -⟩ := h.sound hp
  have hcompleted := h.completes.nothingNew hp (n := n)
    (fun r ch _ hguard => by simp [hguard.target?_eq]) s
  have hcleared := h.clears.nothingNew hm (n := n)
    (fun r ch _ hguard => by simp [hguard.target?_eq]) s
  refine (hcompleted.trans hcleared).trans ?_
  -- the settings and the reported usage are those that the pass began with
  have hsettings : l.settings = p.settings :=
    h.clears.frame.2.1.trans h.completes.frame.2.1
  have hstate : l.state = p.state := h.clears.frame.1.trans h.completes.frame.1
  have hsame : ∀ {G r}, Runs G l r → r.settings = p.settings ∧ Past r = Past p :=
    fun hrun => ⟨hrun.frame.2.1.trans hsettings,
      past_congr (hrun.frame.2.1.trans hsettings) (by rw [hrun.frame.1, hstate])⟩
  rcases hn with hhigh | ⟨hnone, hlow⟩
  · refine h.arranges.nothingNew hl (fun r ch hrun hguard htarget => ?_) s
    obtain ⟨c, haccepts⟩ := hguard.1.accepts htarget
    rw [← (hsame hrun).2, ← (hsame hrun).1] at hhigh
    exact not_accepts_of_past hds hhigh haccepts
  · obtain rfl := h.uncommanded hnone
    refine h.places.nothingNew hl (fun r ch hrun hguard htarget => ?_) s
    obtain ⟨c, happroves⟩ := hguard.approves htarget
    rw [← (hsame hrun).2, ← (hsame hrun).1] at hlow
    exact not_approves_of_past hds hlow happroves

end Pass

end ShardAllocation
