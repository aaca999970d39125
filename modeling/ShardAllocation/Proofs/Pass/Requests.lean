/-
The recoveries that the changes of a pass ask for.

A change that brings a copy to a node asks for the recovery of this copy.  A later change may
take the copy away again and bring another one to the node: then the node is named twice, and
the last request is the one that is about the copy there.  Only a command takes a copy away.

* `Change.request?` — what a change asks for, with `requests_onView` for the log;
* `View.Described` — the last request for a node describes the copy there;
* `View.RequestedOnce` — a node with a copy is named once, one without a copy never;
* `View.Feeds` — the data that a request reads is there;
* `described_apply`, `requestedOnce_apply`, `feeds_apply` — commands and placements keep them.
-/
import ShardAllocation.Proofs.Pass.Arrangement
import ShardAllocation.Proofs.Pass.Log

namespace ShardAllocation

/-- The recovery that a change asks for: that of the copy which it brings to a node. -/
def Change.request? (v : View) : Change → Option Recovery
  | relocate c n target => some ⟨c.shard, some n, target, c.primary⟩
  | install c n => some ⟨c.shard, (v.occupy n c).recoverySource c, n, c.primary⟩
  | create c n => some ⟨c.shard, ((v.queue c).occupy n c).recoverySource c, n, c.primary⟩
  | _ => none

/-- The request is for the copy of the shard on the node. -/
def Recovery.isFor (s : ShardId) (n : NodeId) (w : Recovery) : Bool :=
  w.shard == s && w.target == n

theorem Recovery.isFor_iff {s : ShardId} {n : NodeId} {w : Recovery} :
    w.isFor s n = true ↔ w.shard = s ∧ w.target = n := by
  simp [isFor]

namespace View

/-- The recoveries that a pass asked for so far. -/
def requests (v : View) : List Recovery := v.transitions.filterMap (·.recovery?)

/-- Those for the copy of a shard on a node. -/
def requestsFor (v : View) (s : ShardId) (n : NodeId) : List Recovery :=
  v.requests.filter (·.isFor s n)

/-- The node that a copy is filled from: the source of its move, or the node of the active
primary. -/
def sourceOf? (v : View) (c : Copy) : Option NodeId :=
  if c.isRelocationTarget then c.peer else v.primaryNode? c.shard

/-- The last request for the node describes the copy that initializes there. -/
def Described (v : View) (s : ShardId) (n : NodeId) : Prop :=
  ∀ c w, v.copyOn? s n = some c → c.state = .initializing → (v.requestsFor s n).getLast? = some w →
    w.primary = c.primary ∧ w.source = v.sourceOf? c

/-- At most one request is for the node, and none as long as there is no copy. -/
def RequestedOnce (v : View) (s : ShardId) (n : NodeId) : Prop :=
  (v.requestsFor s n).length ≤ 1 ∧ (v.copyOn? s n = none → v.requestsFor s n = [])

/-- The source of the request has the data, on another node.  Without a source no node has
data. -/
def Feeds (v : View) (w : Recovery) : Prop :=
  (∃ k, w.source = some k ∧ k ≠ w.target ∧ ∃ primary, v.data w.shard k = some primary) ∨
    w.source = none ∧ ∀ k, v.data w.shard k = none

variable {v : View} {m : Metadata} {s : ShardId} {n : NodeId} {c : Copy} {ch : Change}
variable {w : Recovery}

/-! ### One change -/

/-- Only a copy that comes to a node is to be filled. -/
theorem filterMap_notes (v : View) (ch : Change) :
    (ch.notes v).filterMap (·.recovery?) = (ch.request? v).toList := by
  have hpromotions : ∀ (u : View) (s : ShardId), (u.promotions s).filterMap (·.recovery?) = [] := by
    intro u s
    unfold promotions
    split <;> rfl
  cases ch with
  | surrender c n info => exact hpromotions (v.release n c info) c.shard
  | handOver c n => exact hpromotions ((v.vacate n c).noted (.dropped c.shard n)) c.shard
  | _ => rfl

theorem requests_onView (v : View) (ch : Change) :
    (ch.onView v).requests = v.requests ++ (ch.request? v).toList := by
  rw [requests, transitions_onView, List.filterMap_append, filterMap_notes]
  rfl

/-- A copy is brought to a member that held none. -/
theorem copyOn?_of_request? (hfit : ch.Fits m v) (hw : ch.request? v = some w) :
    v.copyOn? w.shard w.target = none := by
  cases ch with
  | relocate c n target =>
    cases hw
    exact hfit.2.2.1
  | install c n =>
    cases hw
    exact hfit.2.1
  | create c n =>
    cases hw
    obtain ⟨-, -, -, -, hempty, -⟩ := hfit
    exact hempty
  | _ => cases hw

/-- A change asks for one recovery on a node that held no copy, or for none there. -/
theorem requestsFor_onView (hfit : ch.Fits m v) (s : ShardId) (n : NodeId) :
    (∃ w, ch.request? v = some w ∧ w.isFor s n = true ∧ v.copyOn? s n = none ∧
      (ch.onView v).requestsFor s n = v.requestsFor s n ++ [w]) ∨
    (∀ w, ch.request? v = some w → w.isFor s n = false) ∧
      (ch.onView v).requestsFor s n = v.requestsFor s n := by
  rw [requestsFor, requests_onView, List.filter_append, ← requestsFor]
  cases hw : ch.request? v with
  | none => exact .inr ⟨fun _ h => (nomatch h), List.append_nil _⟩
  | some w =>
    cases hfor : w.isFor s n with
    | true =>
      obtain ⟨rfl, rfl⟩ := Recovery.isFor_iff.mp hfor
      exact .inl ⟨w, rfl, hfor, copyOn?_of_request? hfit hw, by simp [hfor]⟩
    | false =>
      refine .inr ⟨fun x hx => ?_, by simp [hfor]⟩
      rwa [← Option.some_inj.mp hx]

/-- The source of a copy that was just placed is the one that is noted. -/
theorem sourceOf?_placedOn (h : v.Sound m) (hc : v.copyOn? c.shard n = some (c.placedOn n)) :
    v.sourceOf? (c.placedOn n) = v.recoverySource c := by
  have ht : (c.placedOn n).isRelocationTarget = false := rfl
  rw [sourceOf?, ht, recoverySource]
  cases hprim : c.primary with
  | false => rfl
  | true => exact h.primaryNode?_eq_none hc hprim rfl rfl

end View

namespace Pass

variable {P : Policy} {p q : Pass} {ch : Change} {s : ShardId} {n : NodeId} {c : Copy}
variable {w : Recovery}

/-- The copy that a change brings to a node is the one that its request describes. -/
theorem brought_of_request? (hp : p.Sound) (hfit : ch.Fits p.state.metadata p.view)
    (hw : ch.request? p.view = some w) :
    ∃ c, (ch.apply p).view.copyOn? w.shard w.target = some c ∧ w.primary = c.primary ∧
      w.source = (ch.apply p).view.sourceOf? c := by
  have hafter := (hp.apply hfit).view
  cases ch with
  | relocate d n target =>
    cases hw
    obtain ⟨hd, -, hempty, -⟩ := hfit
    have hnode := (hp.view.consistent.own hd).2
    have hne : target ≠ n := fun heq => by rw [heq, hd] at hempty; cases hempty
    have harriving : (d.arriving target).isRelocationTarget = true :=
      Copy.isRelocationTarget_iff.mpr ⟨rfl, by rw [Copy.arriving, hnode]; rfl⟩
    refine ⟨d.arriving target, ?_, rfl, ?_⟩
    · exact (congrFun (View.layout_depart p.view n target d) target).trans
        (Layout.depart_eq_some.mpr (.inr (.inl ⟨hne, rfl, rfl⟩)))
    · rw [View.sourceOf?, if_pos harriving]
      exact hnode.symm
  | install d n =>
    cases hw
    have hplaced : (p.view.install n d).copyOn? d.shard n = some (d.placedOn n) :=
      (congrFun (View.layout_occupy p.view n d) n).trans (if_pos rfl)
    exact ⟨d.placedOn n, hplaced, rfl, (View.sourceOf?_placedOn hafter hplaced).symm⟩
  | create d n =>
    cases hw
    have hplaced : ((p.view.queue d).install n d).copyOn? d.shard n = some (d.placedOn n) :=
      (congrFun (View.layout_occupy (p.view.queue d) n d) n).trans (if_pos rfl)
    exact ⟨d.placedOn n, hplaced, rfl, (View.sourceOf?_placedOn hafter hplaced).symm⟩
  | _ => cases hw

/-- Where a change brings nothing, no copy begins to initialize, and a copy goes only on a command
that ends what it is doing. -/
theorem unbrought_apply (hp : p.Sound) (hfit : ch.Fits p.state.metadata p.view)
    (hguard : P.Arranges p ch) (hno : ∀ w, ch.request? p.view = some w → w.isFor s n = false) :
    (∀ c, (ch.apply p).view.copyOn? s n = some c → c.state = .initializing →
      p.view.copyOn? s n = some c) ∧
    ((ch.apply p).view.copyOn? s n = none → p.view.copyOn? s n = none ∨ P.Cancels s) := by
  by_cases hs : ch.shard? = some s
  swap
  · rw [Change.apply, View.copyOn?_onView_of_ne hp.view.consistent hfit hs]
    exact ⟨fun _ hc _ => hc, .inl⟩
  have helsewhere : ∀ {w : Recovery}, ch.request? p.view = some w → w.shard = s → n ≠ w.target := by
    rintro w hw rfl rfl
    have hfor := hno w hw
    rw [Recovery.isFor_iff.mpr ⟨rfl, rfl⟩] at hfor
    cases hfor
  cases ch with
  | cancel d k =>
    obtain rfl : d.shard = s := Option.some_inj.mp hs
    refine ⟨fun c hc hinit => ?_, fun _ => .inr hguard.2⟩
    have hc : (p.view.settle k d).copyOn? d.shard n = some c := hc
    rw [View.layout_settle] at hc
    rcases Layout.settle_eq_some.mp hc with ⟨-, rfl⟩ | ⟨-, -, hc⟩
    · cases hinit
    · exact hc
  | relocate d k target =>
    obtain rfl : d.shard = s := Option.some_inj.mp hs
    have hn : n ≠ target := helsewhere rfl rfl
    have hlayout : (p.view.depart k target d).copyOn? d.shard n =
        if n = k then some (d.departing target) else p.view.copyOn? d.shard n := by
      rw [View.layout_depart, Layout.depart, if_neg hn]
    show (∀ c, (p.view.depart k target d).copyOn? d.shard n = some c → _) ∧
      ((p.view.depart k target d).copyOn? d.shard n = none → _)
    rw [hlayout]
    split
    · refine ⟨?_, fun hnone => absurd hnone (Option.some_ne_none _)⟩
      rintro _ ⟨⟩ ⟨⟩
    · exact ⟨fun _ hc _ => hc, .inl⟩
  | release d k info =>
    obtain rfl : d.shard = s := Option.some_inj.mp hs
    refine ⟨fun c hc _ => ?_, fun _ => .inr hguard.2.2⟩
    have hc : (p.view.vacate k d).copyOn? d.shard n = some c := hc
    rw [View.layout_vacate] at hc
    exact (Layout.vacate_eq_some.mp hc).2.2
  | install d k =>
    obtain rfl : d.shard = s := Option.some_inj.mp hs
    have hlayout : (p.view.occupy k d).copyOn? d.shard n = p.view.copyOn? d.shard n := by
      rw [View.layout_occupy, Layout.fill, if_neg (helsewhere rfl rfl)]
    exact ⟨fun _ hc _ => hlayout.symm.trans hc, fun hnone => .inl (hlayout.symm.trans hnone)⟩
  | create d k =>
    obtain rfl : d.shard = s := Option.some_inj.mp hs
    have hlayout : ((p.view.queue d).occupy k d).copyOn? d.shard n = p.view.copyOn? d.shard n := by
      rw [View.layout_occupy, Layout.fill, if_neg (helsewhere rfl rfl)]
      rfl
    exact ⟨fun _ hc _ => hlayout.symm.trans hc, fun hnone => .inl (hlayout.symm.trans hnone)⟩
  | record t a => cases hs
  | start | surrender | handOver | forget => exact hguard.2.elim

/-- A replica that is placed finds an active primary, and a primary no other one. -/
theorem source_of_request? (hp : p.Sound) (hfit : ch.Fits p.state.metadata p.view)
    (hguard : P.Arranges p ch) (hds : Decider.replicaAfterPrimaryActive ∈ P.deciders)
    (hw : ch.request? p.view = some w) :
    (∃ k, w.source = some k ∧ ∃ primary, p.view.data w.shard k = some primary) ∨
      w.source = none ∧ ∀ k, p.view.data w.shard k ≠ some true := by
  have hafter := (hp.apply hfit).view
  have hsame := data_apply hp hfit hguard
  -- a replica that is placed is filled from the primary, which stays where it is
  have hplaced : ∀ {c : Copy} {n : NodeId} {v : View}, Accepts P.deciders p c n →
      c.primary = false → v.recoverySource c = (ch.apply p).view.primaryNode? c.shard →
      ∃ k, v.recoverySource c = some k ∧ ∃ primary, p.view.data c.shard k = some primary := by
    intro c n v haccepts hprim hsource
    obtain ⟨k, d, hd, hactive, hdprim⟩ :=
      haccepts.activePrimary hp.view.consistent.indexed hds hprim
    have hdata : p.view.data c.shard k = some true :=
      Layout.data_eq_some.mpr ⟨d, hd, hactive, hdprim⟩
    refine ⟨k, ?_, true, hdata⟩
    rw [hsource, hafter.primaryNode?_eq_some_iff, hsame, hdata]
  cases ch with
  | relocate c n target =>
    cases hw
    obtain ⟨hc, hstarted, -⟩ := hfit
    exact .inl ⟨n, rfl, c.primary, Layout.data_of_active hc (Copy.isActive_iff.mpr (.inl hstarted))⟩
  | install c n =>
    cases hw
    cases hprim : c.primary with
    | false =>
      have hsource : (p.view.occupy n c).recoverySource c =
          (p.view.install n c).primaryNode? c.shard := by
        rw [View.recoverySource, hprim]
        rfl
      exact .inl (hplaced hguard.1.1 hprim hsource)
    | true =>
      refine .inr ⟨?_, fun k => hp.view.data_ne_of_waiting hfit.1 hprim k⟩
      rw [View.recoverySource, hprim]
      rfl
  | create c n =>
    cases hw
    obtain ⟨-, -, hprim, -⟩ := hfit
    have hsource : ((p.view.queue c).occupy n c).recoverySource c =
        ((p.view.queue c).install n c).primaryNode? c.shard := by
      rw [View.recoverySource, hprim]
      rfl
    exact .inl (hplaced hguard.1 hprim hsource)
  | _ => cases hw

/-! ### What commands and placements keep -/

theorem described_apply (hp : p.Sound) (hfit : ch.Fits p.state.metadata p.view)
    (hguard : P.Arranges p ch) (h : p.view.Described s n) : (ch.apply p).view.Described s n := by
  intro c w hc hinit hlast
  rcases View.requestsFor_onView hfit s n with ⟨x, hx, hfor, -, hrequests⟩ | ⟨hno, hrequests⟩
  · -- the change brings the copy, and its request is the last one
    rw [Change.apply, hrequests, List.getLast?_concat] at hlast
    obtain rfl := Option.some_inj.mp hlast
    obtain ⟨rfl, rfl⟩ := Recovery.isFor_iff.mp hfor
    obtain ⟨d, hd, hdescribes⟩ := brought_of_request? hp hfit hx
    obtain rfl : c = d := Option.some_inj.mp (hc.symm.trans hd)
    exact hdescribes
  · rw [Change.apply, hrequests] at hlast
    have hold := (unbrought_apply hp hfit hguard hno).1 c hc hinit
    obtain ⟨hrole, hsource⟩ := h c w hold hinit hlast
    refine ⟨hrole, hsource.trans ?_⟩
    rw [View.sourceOf?, View.sourceOf?, primaryNode?_apply hp hfit hguard]

theorem requestedOnce_apply (hp : p.Sound) (hfit : ch.Fits p.state.metadata p.view)
    (hguard : P.Arranges p ch) (hcancels : ¬ P.Cancels s) (h : p.view.RequestedOnce s n) :
    (ch.apply p).view.RequestedOnce s n := by
  obtain ⟨hlength, hempty⟩ := h
  rcases View.requestsFor_onView hfit s n with ⟨x, hx, hfor, hn, hrequests⟩ | ⟨hno, hrequests⟩
  · -- there was no copy, so this is the first request
    refine ⟨?_, fun hgone => ?_⟩
    · rw [Change.apply, hrequests, hempty hn]
      exact Nat.le_refl 1
    · obtain ⟨rfl, rfl⟩ := Recovery.isFor_iff.mp hfor
      obtain ⟨d, hd, -⟩ := brought_of_request? hp hfit hx
      rw [hd] at hgone
      cases hgone
  · rw [View.RequestedOnce, Change.apply, hrequests]
    exact ⟨hlength, fun hgone =>
      hempty (((unbrought_apply hp hfit hguard hno).2 hgone).resolve_right hcancels)⟩

/-- The data that a request reads stays where it is. -/
theorem View.Feeds.apply (h : p.view.Feeds w) (hp : p.Sound)
    (hfit : ch.Fits p.state.metadata p.view) (hguard : P.Arranges p ch) :
    (ch.apply p).view.Feeds w := by
  rwa [View.Feeds, data_apply hp hfit hguard]

theorem feeds_apply (hp : p.Sound) (hfit : ch.Fits p.state.metadata p.view)
    (hguard : P.Arranges p ch) (hds : Decider.replicaAfterPrimaryActive ∈ P.deciders)
    (hled : ∀ s k primary, p.view.data s k = some primary → ∃ j, p.view.data s j = some true)
    (h : ∀ w ∈ p.view.requests, p.view.Feeds w) :
    ∀ w ∈ (ch.apply p).view.requests, (ch.apply p).view.Feeds w := by
  intro w hw
  rw [Change.apply, View.requests_onView] at hw
  refine View.Feeds.apply ?_ hp hfit hguard
  rcases List.mem_append.mp hw with hw | hw
  · exact h w hw
  have hw := Option.mem_toList.mp hw
  rcases source_of_request? hp hfit hguard hds hw with ⟨k, hsource, primary, hdata⟩ | ⟨hsource, hno⟩
  · refine .inl ⟨k, hsource, ?_, primary, hdata⟩
    rintro rfl
    rw [View.data, Layout.data_of_empty (View.copyOn?_of_request? hfit hw)] at hdata
    cases hdata
  · refine .inr ⟨hsource, fun k => ?_⟩
    cases hdata : p.view.data w.shard k with
    | none => rfl
    | some primary =>
      obtain ⟨j, hj⟩ := hled w.shard k primary hdata
      exact absurd hj (hno j)

/-! ### A whole run -/

/-- Reports and departed nodes bring no copy to a node. -/
theorem Runs.requests_eq (h : Runs (fun u ch => P.Completes u ch ∨ P.Clears u ch) p q) :
    q.view.requests = p.view.requests := by
  refine h.invariant (I := fun u => u.view.requests = p.view.requests) rfl ?_
  intro u ch hsame _ hguard
  have hno : ch.request? u.view = none := by
    cases ch with
    | relocate | install | create => exact (hguard.elim id And.right).elim
    | _ => rfl
  rw [Change.apply, View.requests_onView, hno, Option.toList_none, List.append_nil, hsame]

theorem Runs.described (h : Runs P.Arranges p q) (hp : p.Sound) (hnone : p.view.requests = [])
    (s : ShardId) (n : NodeId) : q.view.Described s n := by
  have hfirst : p.view.Described s n := fun c w _ _ hlast => by
    rw [View.requestsFor, hnone] at hlast
    cases hlast
  exact h.invariant_of_sound hp hfirst fun _ _ _ hu hsame hfit hguard =>
    described_apply hu hfit hguard hsame

theorem Runs.requestedOnce (h : Runs P.Arranges p q) (hp : p.Sound) (hnone : p.view.requests = [])
    (hcancels : ¬ P.Cancels s) (n : NodeId) : q.view.RequestedOnce s n := by
  have hfirst : p.view.RequestedOnce s n := by
    rw [View.RequestedOnce, View.requestsFor, hnone]
    exact ⟨Nat.zero_le 1, fun _ => rfl⟩
  exact h.invariant_of_sound hp hfirst fun _ _ _ hu hsame hfit hguard =>
    requestedOnce_apply hu hfit hguard hcancels hsame

theorem Runs.feeds (h : Runs P.Arranges p q) (hp : p.Sound) (hnone : p.view.requests = [])
    (hds : Decider.replicaAfterPrimaryActive ∈ P.deciders) (hled : ∀ s, p.view.Led s) :
    ∀ w ∈ q.view.requests, q.view.Feeds w := by
  refine h.invariant_of_sound hp (I := fun u => ∀ w ∈ u.view.requests, u.view.Feeds w)
    (fun w hw => ?_) fun u ch hrun hu hfeeds hfit hguard => ?_
  · rw [hnone] at hw
    cases hw
  · refine feeds_apply hu hfit hguard hds (fun s k primary hdata => ?_) hfeeds
    rw [hrun.data_eq hp] at hdata ⊢
    exact (hled s).exists_data hdata

end Pass

end ShardAllocation
