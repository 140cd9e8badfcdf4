/-
  DynaSpec.MemCache.RadixRefines — the radix cache refines a prefix map.

  A tree stands for the map that its root-to-node paths spell out (`Path`, `Binds`,
  `Represents`). Keys of whole pages that are filed under their first page make the node
  that holds a page unique (`Owns.unique`), so a walk that has stopped has found the longest
  stored part of its key (`Stops.longest`). `radixCache_refines` is the refinement, for every
  state that calls can lead to.
-/

import DynaSpec.Lib.PrefixMap
import DynaSpec.MemCache.RadixEvict

namespace DynaSpec.MemCache

open DynaSpec.Lib List Nat
open Option (some)

variable {k : List Token} {v : List Nat}

namespace RadixCache

/-! ## The map that a tree stands for -/

/-- `n` is reached from the root; the keys on the way spell `q` and the values `w`. -/
inductive Path (s : RadixCache) : NodeId → List Token → List Nat → Prop where
  | root : Path s s.rootNode [] []
  | child {p q w k c} : Path s p q w → (k, c) ∈ (s.node p).children.items →
      Path s c (q ++ (s.node c).key.tokenIds) (w ++ (s.node c).value)

/-- The tree holds the slots `v` for the last page of `p` under the extra key `e`. -/
def Binds (pageSize : Nat) (s : RadixCache) (e : Option String) (p : List Token) (v : List Nat) : Prop :=
  ∃ n q w, Path s n q w ∧ n ≠ s.rootNode ∧ (s.node n).key.extraKey = e ∧ p <+: q ∧ p ≠ [] ∧ pageSize ∣ p.length ∧
    v = lastPage pageSize w p.length

abbrev SlotMap (pageSize : Nat) := PrefixMap (Option String) Token Nat pageSize

def Represents {pageSize : Nat} (s : RadixCache) (m : SlotMap pageSize) : Prop :=
  ∀ e p v, m.get e p = some v ↔ Binds pageSize s e p v

variable {cfg : Config} {s s' : RadixCache} {t t' : View} {pageSize : Nat}

/-- `n` lies on the far side of the pages of `p`. -/
structure Stores (pageSize : Nat) (s : RadixCache) (t : View) (e : Option String) (p : List Token) (n : NodeId) : Prop where
  live : n ∈ t.live
  not_root : n ≠ s.rootNode
  extra : (s.node n).key.extraKey = e
  pre : p <+: t.path n
  ne : p ≠ []
  dvd : pageSize ∣ p.length

variable {m : SlotMap pageSize} {n : NodeId} {e : Option String} {key : RadixKey} {p : List Token} {value : List Nat} {r : Nat}

theorem Wf.path_iff (w : Wf pageSize s t) {q : List Token} : Path s n q v ↔ n ∈ t.live ∧ q = t.path n ∧ v = t.slots n := by
  constructor
  · intro h
    induction h with
    | root => exact ⟨w.root_live, w.root_path.symm, w.root_slots.symm⟩
    | child _ hk ih =>
      obtain ⟨hlive, rfl, rfl⟩ := ih
      obtain ⟨hc, hr, hp, -⟩ := (w.child_iff _ hlive _ _).mp hk
      have hangs := w.parent_hangs (w.live_known _ hc) hr hp
      exact ⟨hc, hangs.path.symm, hangs.slots.symm⟩
  · rintro ⟨hlive, rfl, rfl⟩
    have h : ∀ n, s.Known n → n ∈ t.live → Path s n (t.path n) (t.slots n) := by
      refine w.climb ?_ ?_
      · intro _
        rw [w.root_path, w.root_slots]
        exact .root
      · intro n p _ hr hp ih hlive
        have hplive := w.parent_live n hlive hr p hp.parent
        obtain ⟨k, hk⟩ := getChildKey_ok pageSize (length_pos_iff.mp hp.key_pos)
        rw [hp.path, hp.slots]
        exact .child (ih hplive) ((w.child_iff p hplive k n).mpr ⟨hlive, hr, hp.parent, hk⟩)
    exact h n (w.live_known n hlive) hlive

theorem Wf.binds_iff (w : Wf pageSize s t) :
    Binds pageSize s e p v ↔ ∃ n, Stores pageSize s t e p n ∧ v = lastPage pageSize (t.slots n) p.length := by
  constructor
  · rintro ⟨n, q, u, hpath, hr, he, hpre, hne, hdvd, rfl⟩
    obtain ⟨hlive, rfl, rfl⟩ := w.path_iff.mp hpath
    exact ⟨n, ⟨hlive, hr, he, hpre, hne, hdvd⟩, rfl⟩
  · rintro ⟨n, h, rfl⟩
    exact ⟨n, _, _, w.path_iff.mpr ⟨h.live, rfl, rfl⟩, h.not_root, h.extra, h.pre, h.ne, h.dvd, rfl⟩

/-! ## One node holds each page -/

/-- `n` is the node whose key the last page of `p` is part of. -/
structure Owns (pageSize : Nat) (s : RadixCache) (t : View) (e : Option String) (p : List Token) (n : NodeId) : Prop
    extends Stores pageSize s t e p n where
  above : ∀ q, (s.node n).parent = some q → (t.path q).length < p.length

section
variable (w : Wf pageSize s t)
include w

theorem Wf.path_eq_nil (hn : s.Known n) (h : t.path n = []) : n = s.rootNode := by
  by_contra hr
  obtain ⟨p, hp⟩ := w.hangs n hn hr
  have := hp.path_lt
  rw [h] at this
  cases this

/-- A node other than the root owns its own path. -/
theorem Wf.owns_self (al : AlignedTree pageSize s) (hlive : n ∈ t.live)
    (hr : n ≠ s.rootNode) : Owns pageSize s t (s.node n).key.extraKey (t.path n) n where
  live := hlive
  not_root := hr
  extra := rfl
  pre := prefix_rfl
  ne h := hr (w.path_eq_nil (w.live_known n hlive) h)
  dvd := al.path w n (w.live_known n hlive)
  above _ hq := (w.parent_hangs (w.live_known n hlive) hr hq).path_lt

theorem Wf.extra_parent {p : NodeId} (hlive : n ∈ t.live) (hr : n ≠ s.rootNode)
    (hp : (s.node n).parent = some p) (hpr : p ≠ s.rootNode) : (s.node p).key.extraKey = (s.node n).key.extraKey :=
  ((w.namespaced n hlive hr p hp).resolve_left hpr).symm

theorem Stores.owner : ∀ {n : NodeId}, Stores pageSize s t e p n →
    ∃ o, Owns pageSize s t e p o ∧ (t.slots o).take p.length = (t.slots n).take p.length := by
  have h : ∀ n, s.Known n → Stores pageSize s t e p n →
      ∃ o, Owns pageSize s t e p o ∧ (t.slots o).take p.length = (t.slots n).take p.length := by
    refine w.climb ?_ ?_
    · intro h
      exact absurd rfl h.not_root
    intro n q hn hr hq ih h
    by_cases hlt : (t.path q).length < p.length
    · refine ⟨n, ⟨h, fun q' hq' => ?_⟩, rfl⟩
      rw [hq.parent] at hq'
      exact some.inj hq' ▸ hlt
    have hle := Nat.le_of_not_lt hlt
    have hpre : p <+: t.path q :=
      prefix_of_prefix_length_le h.pre (hq.path ▸ prefix_append _ _) hle
    have hqr : q ≠ s.rootNode := by
      rintro rfl
      rw [w.root_path] at hpre
      exact h.ne (prefix_nil.mp hpre)
    obtain ⟨o, ho, hslots⟩ := ih ⟨w.parent_live n h.live hr q hq.parent, hqr,
      (w.extra_parent h.live hr hq.parent hqr).trans h.extra, hpre, h.ne, h.dvd⟩
    refine ⟨o, ho, ?_⟩
    rw [hslots, hq.slots, take_append_of_le_length]
    rw [w.slots_length q hq.known]
    exact hle
  intro n hn
  exact h n (w.live_known n hn.live) hn

section
variable (al : AlignedTree pageSize s)
include al

/-- The first page of a node's key, inside a list that leads to the node. -/
theorem Owns.page {q : NodeId} (h : Owns pageSize s t e p n) (hq : (s.node n).parent = some q) :
    (s.node n).key.tokenIds.take pageSize = (p.drop (t.path q).length).take pageSize := by
  have hangs := w.parent_hangs (w.live_known n h.live) h.not_root hq
  have hlt := h.above q hq
  obtain ⟨x, hx⟩ := h.pre
  have hqdvd := al.path w q hangs.known
  have hle := add_page_le hqdvd h.dvd hlt
  have hkey : (s.node n).key.tokenIds = (p ++ x).drop (t.path q).length := by
    rw [hx, hangs.path, drop_left]
  rw [hkey, drop_append_of_le_length (by omega), take_append_of_le_length]
  rw [length_drop]
  omega

theorem Owns.unique (len : Nat) (p : List Token) (n1 n2 : NodeId) (hlen : p.length ≤ len) (h1 : Owns pageSize s t e p n1)
    (h2 : Owns pageSize s t e p n2) : n1 = n2 := by
  induction len generalizing p n1 n2 with
  | zero =>
    exact absurd (length_eq_zero_iff.mp (le_zero.mp hlen)) h1.ne
  | succ len ih =>
    obtain ⟨q1, hq1⟩ := w.hangs n1 (w.live_known n1 h1.live) h1.not_root
    obtain ⟨q2, hq2⟩ := w.hangs n2 (w.live_known n2 h2.live) h2.not_root
    -- the part of `p` that leads to the parent of `n` is owned by the parent, if it is not empty
    have hparent : ∀ {n q}, Owns pageSize s t e p n → Hangs s t n q → q ≠ s.rootNode →
        Owns pageSize s t e (t.path q) q ∧ t.path q <+: p := by
      intro n q h hq hr
      have hqlive := w.parent_live n h.live h.not_root q hq.parent
      have hext : (s.node q).key.extraKey = e := (w.extra_parent h.live h.not_root hq.parent hr).trans h.extra
      refine ⟨hext ▸ w.owns_self al hqlive hr, ?_⟩
      exact prefix_of_prefix_length_le (hq.path ▸ prefix_append _ _) h.pre (le_of_lt (h.above q hq.parent))
    have hshort : ∀ {n n' q q'}, Owns pageSize s t e p n → Hangs s t n q → Owns pageSize s t e p n' → Hangs s t n' q' →
        ¬ (t.path q).length < (t.path q').length := by
      intro n n' q q' h hq h' hq' hlt
      have hr' : q' ≠ s.rootNode := by
        rintro rfl
        rw [w.root_path] at hlt
        cases hlt
      obtain ⟨hown, hpre⟩ := hparent h' hq' hr'
      have hown' : Owns pageSize s t e (t.path q') n :=
        ⟨⟨h.live, h.not_root, h.extra, hpre.trans h.pre, hown.ne, hown.dvd⟩, fun q'' hq'' => by
          rw [hq.parent] at hq''
          exact some.inj hq'' ▸ hlt⟩
      have hlen' := h'.above q' hq'.parent
      have heq := ih _ q' n (by omega) hown hown'
      subst heq
      have := h.pre.length_le
      omega
    have hsame : q1 = q2 := by
      have hlen1 := hshort h1 hq1 h2 hq2
      have hlen2 := hshort h2 hq2 h1 hq1
      have hlt := h1.above q1 hq1.parent
      have heq : (t.path q1).length = (t.path q2).length := by omega
      by_cases hr1 : q1 = s.rootNode
      · rw [hr1, w.root_path] at heq
        rw [hr1, w.path_eq_nil hq2.known (length_eq_zero_iff.mp heq.symm)]
      have hr2 : q2 ≠ s.rootNode := by
        rintro rfl
        rw [w.root_path] at heq
        exact hr1 (w.path_eq_nil hq1.known (length_eq_zero_iff.mp heq))
      obtain ⟨ho1, hp1⟩ := hparent h1 hq1 hr1
      obtain ⟨ho2, hp2⟩ := hparent h2 hq2 hr2
      have hpath := (prefix_of_prefix_length_le hp1 hp2 heq.le).eq_of_length heq
      exact ih _ q1 q2 (by omega) ho1 (hpath ▸ ho2)
    -- two children of one node with the same first page are filed under one child key
    subst hsame
    have hlive := w.parent_live n1 h1.live h1.not_root q1 hq1.parent
    obtain ⟨k, hk⟩ := getChildKey_ok pageSize (length_pos_iff.mp hq1.key_pos)
    have hk2 : getChildKey pageSize (s.node n2).key = .ok k :=
      (getChildKey_inj hk (length_pos_iff.mp hq2.key_pos)).mpr
        ⟨h1.extra.trans h2.extra.symm, (h1.page w al hq1.parent).trans (h2.page w al hq2.parent).symm⟩
    exact Dict.unique ((w.child_iff q1 hlive k n1).mpr ⟨h1.live, h1.not_root, hq1.parent, hk⟩)
      ((w.child_iff q1 hlive k n2).mpr ⟨h2.live, h2.not_root, hq2.parent, hk2⟩)

theorem Stores.slots_eq {n' : NodeId} (h : Stores pageSize s t e p n) (h' : Stores pageSize s t e p n') :
    (t.slots n).take p.length = (t.slots n').take p.length := by
  obtain ⟨o, ho, hslots⟩ := h.owner w
  obtain ⟨o', ho', hslots'⟩ := h'.owner w
  have := Owns.unique w al _ p o o' (le_refl _) ho ho'
  subst this
  rw [← hslots, hslots']

/-- A walk that has stopped has come as far as any stored part of its key. -/
theorem Stops.longest (hps : 0 < pageSize) (h : Stops pageSize s t key n) (hlen : (t.path n).length + pageSize ≤ key.len)
    (x : NodeId) :
    ¬ Stores pageSize s t key.extraKey (key.tokenIds.take ((t.path n).length + pageSize)) x := by
  intro hx
  obtain ⟨rest, hkey, hstop⟩ := h.path
  have hnk := w.live_known n h.live
  have hplen : (key.tokenIds.take ((t.path n).length + pageSize)).length = (t.path n).length + pageSize := by
    rw [length_take]
    exact min_eq_left hlen
  have hpn : t.path n <+: key.tokenIds.take ((t.path n).length + pageSize) := by
    rw [hkey, take_append, take_of_length_le (le_add_right _ _)]
    exact prefix_append _ _
  obtain ⟨o, ho, -⟩ := hx.owner w
  obtain ⟨q, hq⟩ := w.hangs o (w.live_known o ho.live) ho.not_root
  have habove := ho.above q hq.parent
  have hnext := add_page_le (al.path w q hq.known) ho.dvd habove
  have hnown : n ≠ s.rootNode → Owns pageSize s t key.extraKey (t.path n) n := fun hr =>
    (h.extra.resolve_left hr).symm ▸ w.owns_self al h.live hr
  rcases lt_or_eq_of_le (show (t.path q).length ≤ (t.path n).length by omega) with hlt | heq
  · -- the owner would own the path of `n` too
    have hr : n ≠ s.rootNode := by
      rintro rfl
      rw [w.root_path] at hlt
      cases hlt
    have hown : Owns pageSize s t key.extraKey (t.path n) o :=
      ⟨⟨ho.live, ho.not_root, ho.extra, hpn.trans ho.pre, (hnown hr).ne, (hnown hr).dvd⟩, fun q' hq' => by
        rw [hq.parent] at hq'
        exact some.inj hq' ▸ hlt⟩
    obtain rfl := Owns.unique w al _ _ o n (le_refl _) hown (hnown hr)
    have := ho.pre.length_le
    omega
  -- the owner hangs below `n`, under the child key that the walk did not find
  have hqn : q = n := by
    have hpath : t.path q = t.path n := by
      have hqo : t.path q <+: t.path o := hq.path ▸ prefix_append _ _
      exact (prefix_of_prefix_length_le hqo (hpn.trans ho.pre) (le_of_eq heq)).eq_of_length heq
    by_cases hr : n = s.rootNode
    · rw [hr, w.root_path] at hpath
      rw [w.path_eq_nil hq.known hpath, hr]
    have hqr : q ≠ s.rootNode := by
      rintro rfl
      rw [w.root_path] at hpath
      exact hr (w.path_eq_nil hnk hpath.symm)
    have hqlive := w.parent_live o ho.live ho.not_root q hq.parent
    have hext : (s.node q).key.extraKey = key.extraKey :=
      (w.extra_parent ho.live ho.not_root hq.parent hqr).trans ho.extra
    have hqown := w.owns_self al hqlive hqr
    rw [hext, hpath] at hqown
    exact Owns.unique w al _ _ q n (le_refl _) hqown (hnown hr)
  subst hqn
  have hrest : rest ≠ [] := by
    rintro rfl
    rw [append_nil] at hkey
    unfold RadixKey.len at hlen
    rw [hkey] at hlen
    omega
  obtain ⟨k, hk, hnone⟩ := hstop hrest
  have hpage := ho.page w al hq.parent
  rw [hkey, take_append, take_of_length_le (Nat.le_add_right _ _), drop_left, Nat.add_sub_cancel_left, take_take,
    Nat.min_self] at hpage
  have hok : getChildKey pageSize (s.node o).key = .ok k :=
    (getChildKey_inj hk (length_pos_iff.mp hq.key_pos)).mpr ⟨ho.extra.symm, hpage.symm⟩
  exact Dict.get?_eq_none.mp hnone o ((w.child_iff q h.live k o).mpr ⟨ho.live, ho.not_root, hq.parent, hok⟩)

end

end

/-! ## Every tree of whole pages stands for a map -/

open Classical in
/-- The map that the view spells out. -/
noncomputable def View.toMap (pageSize : Nat) (s : RadixCache) (t : View) (e : Option String)
    (p : List Token) : Option (List Nat) :=
  if h : ∃ n, Stores pageSize s t e p n then some (lastPage pageSize (t.slots h.choose) p.length) else none

theorem exists_represents (w : Wf pageSize s t) (al : AlignedTree pageSize s) : ∃ m : SlotMap pageSize, Represents s m := by
  have hiff : ∀ e p v, View.toMap pageSize s t e p = some v ↔ Binds pageSize s e p v := by
    intro e p v
    rw [w.binds_iff]
    unfold View.toMap
    split
    · rename_i h
      constructor
      · intro hv
        exact ⟨h.choose, h.choose_spec, (some.inj hv).symm⟩
      · rintro ⟨n, hn, rfl⟩
        rw [lastPage_of_take_eq (h.choose_spec.slots_eq w al hn)]
    rename_i h
    constructor
    · nofun
    · rintro ⟨n, hn, -⟩
      exact absurd ⟨n, hn⟩ h
  refine ⟨⟨View.toMap pageSize s t, ?_, ?_⟩, hiff⟩
  · intro e p v hv
    obtain ⟨n, hn, rfl⟩ := w.binds_iff.mp ((hiff e p v).mp hv)
    refine ⟨hn.ne, hn.dvd, length_lastPage (le_of_dvd (length_pos_iff.mpr hn.ne) hn.dvd) ?_⟩
    rw [w.slots_length n (w.live_known n hn.live)]
    exact hn.pre.length_le
  · intro e p q v hv hqp hq hdvd
    obtain ⟨n, hn, -⟩ := w.binds_iff.mp ((hiff e p v).mp hv)
    exact ⟨_, (hiff e q _).mpr (w.binds_iff.mpr ⟨n, ⟨hn.live, hn.not_root, hn.extra, hqp.trans hn.pre, hq, hdvd⟩, rfl⟩)⟩

/-! ## What the steps do to the map -/

theorem take_pages (hdvd : pageSize ∣ key.len) :
    key.tokenIds = key.tokenIds.take (key.tokenIds.length / pageSize * pageSize) := by
  rw [show key.tokenIds.length / pageSize * pageSize = key.tokenIds.length from Nat.div_mul_cancel hdvd, take_length]

section
variable (w : Wf pageSize s t) (h : Represents s m)
include w h

theorem Represents.of_stores (w' : Wf pageSize s' t')
    (hiff : ∀ e p v, (∃ n, Stores pageSize s' t' e p n ∧ v = lastPage pageSize (t'.slots n) p.length) ↔
      ∃ n, Stores pageSize s t e p n ∧ v = lastPage pageSize (t.slots n) p.length) : Represents s' m := by
  intro e p v
  rw [h e p v, w.binds_iff, w'.binds_iff, hiff]

theorem Represents.sameTree (hsame : SameTree s s') : Represents s' m := by
  refine h.of_stores w (w.sameTree hsame) fun e p v => exists_congr fun n => and_congr_left fun _ => ?_
  constructor
  · rintro ⟨h1, h2, h3, h4, h5, h6⟩
    exact ⟨h1, hsame.root ▸ h2, hsame.key n ▸ h3, h4, h5, h6⟩
  · rintro ⟨h1, h2, h3, h4, h5, h6⟩
    exact ⟨h1, hsame.root.symm ▸ h2, (hsame.key n).symm ▸ h3, h4, h5, h6⟩

theorem Represents.split {c p : NodeId} (hps : 0 < pageSize) (hc : c ∈ t.live) (hcr : c ≠ s.rootNode)
    (hp : (s.node c).parent = some p) (hr : pageSize ≤ r)
    (hlt : r < (s.node c).key.len) (hsplit : Split pageSize s s' c p r) : Represents s' m := by
  have w' := w.split hsplit hcr hp hps hc hr hlt
  have hcp := w.parent_hangs (w.live_known c hc) hcr hp
  refine h.of_stores w w' fun e q v => ?_
  constructor
  · rintro ⟨n, ⟨hlive, hnr, he, hpre, hne, hdvd⟩, rfl⟩
    rw [hsplit.root] at hnr
    rcases Finset.mem_insert.mp hlive with rfl | hlive
    · -- what the new node holds, the node below it held
      have hpath : q <+: t.path p ++ (s.node c).key.tokenIds.take r := by simpa [View.split] using hpre
      have hslots : (t.split c p s.counter ((s.node c).key.tokenIds.take r) ((s.node c).value.take r)).slots s.counter =
          t.slots p ++ (s.node c).value.take r := by simp [View.split]
      refine ⟨c, ⟨hc, hcr, ?_, ?_, hne, hdvd⟩, ?_⟩
      · rw [← he, hsplit.key, if_pos rfl]
        rfl
      · rw [hcp.path]
        exact hpath.trans (prefix_append_right_inj _ |>.mpr ( take_prefix _ _))
      · refine lastPage_of_take_eq ?_
        have hlen := hpath.length_le
        rw [length_append, length_take, ← w.slots_length p hcp.known] at hlen
        rw [hslots, hcp.slots, take_append, take_append, take_take, min_eq_left]
        omega
    · have hnne := (w.live_known n hlive).ne_counter
      refine ⟨n, ⟨hlive, hnr, hsplit.extraKey hnne ▸ he, ?_, hne, hdvd⟩, ?_⟩
      · simpa [View.split, hnne] using hpre
      · simp [View.split, hnne]
  · rintro ⟨n, ⟨hlive, hnr, he, hpre, hne, hdvd⟩, rfl⟩
    have hnne := (w.live_known n hlive).ne_counter
    refine ⟨n, ⟨Finset.mem_insert_of_mem hlive, hsplit.root.symm ▸ hnr, (hsplit.extraKey hnne).symm ▸ he, ?_, hne, hdvd⟩, ?_⟩
    · simpa [View.split, hnne] using hpre
    · simp [View.split, hnne]

theorem Represents.steps (hps : 0 < pageSize) (hsteps : Steps pageSize s t s' t') : Represents s' m := by
  refine (hsteps.keeps hps (fun s _ => Represents s m) w h ?_ ?_).2
  · intro s1 s2 t1 w1 hsame _ h1
    exact h1.sameTree w1 hsame
  · intro s1 s2 t1 c p r w1 hc hcr hp hdvd hpos hlt hsplit h1
    exact h1.split w1 hps hc hcr hp (le_of_dvd hpos hdvd) hlt hsplit

section
variable (hps : 0 < pageSize) (al : AlignedTree pageSize s)
include hps al

/-- Where a walk stops is the longest stored part of its key. -/
theorem Stops.pages (hstops : Stops pageSize s t key n) (hk : key.tokenIds = k.take (k.length / pageSize * pageSize)) :
    m.pages key.extraKey k = (t.path n).length / pageSize ∧ (t.path n).length / pageSize * pageSize = (t.path n).length ∧
      t.path n <+: k := by
  have hdvd := al.path w n (w.live_known n hstops.live)
  have hmul : (t.path n).length / pageSize * pageSize = (t.path n).length := Nat.div_mul_cancel hdvd
  obtain ⟨rest, hrest, -⟩ := hstops.path
  have hpk : t.path n <+: k := by
    refine List.IsPrefix.trans ?_ ( take_prefix (k.length / pageSize * pageSize) k)
    rw [← hk, hrest]
    exact prefix_append _ _
  have htake : k.take (t.path n).length = t.path n := (prefix_iff_eq_take.mp hpk).symm
  refine ⟨PrefixMap.pages_eq hps (by rw [hmul]; exact hpk.length_le) (fun h0 => ?_) fun hle => ?_, hmul, hpk⟩
  · have hr : n ≠ s.rootNode := by
      rintro rfl
      rw [w.root_path] at h0
      exact h0 (Nat.zero_div _)
    have hown := w.owns_self al hstops.live hr
    rw [hmul, htake]
    refine ⟨_, (h _ _ _).mpr (w.binds_iff.mpr ⟨n, ?_, rfl⟩)⟩
    exact (hstops.extra.resolve_left hr).symm ▸ hown.toStores
  rw [succ_mul, hmul] at hle ⊢
  by_contra hsome
  obtain ⟨v, hv⟩ := Option.ne_none_iff_exists'.mp hsome
  obtain ⟨x, hx, -⟩ := w.binds_iff.mp ((h _ _ _).mp hv)
  have hlen : (t.path n).length + pageSize ≤ key.len := by
    unfold RadixKey.len
    rw [hk, length_take, ← hmul, ← succ_mul]
    rw [← hmul, ← succ_mul] at hle
    refine Nat.le_min.mpr ⟨mul_le_mul_right _ ((le_div_iff_mul_le hps).mpr hle), hle⟩
  refine hstops.longest w al hps hlen x ?_
  rw [hk, take_take, min_eq_left]
  · exact hx
  · unfold RadixKey.len at hlen
    rw [hk, length_take] at hlen
    omega

theorem Stops.lookup (hstops : Stops pageSize s t key n)
    (hk : key.tokenIds = k.take (k.length / pageSize * pageSize)) : m.lookup key.extraKey k = t.slots n := by
  obtain ⟨hpages, hmul, hpk⟩ := hstops.pages w h hps al hk
  have hnk := w.live_known n hstops.live
  refine PrefixMap.lookup_eq ?_ fun i hi => ?_
  · rw [PrefixMap.longest, hpages, hmul, w.slots_length n hnk]
  rw [hpages] at hi
  have hr : n ≠ s.rootNode := by
    rintro rfl
    rw [w.root_path] at hi
    simp at hi
  have hle : (i + 1) * pageSize ≤ (t.path n).length := by
    rw [← hmul]
    exact mul_le_mul_right _ hi
  have hpre : k.take ((i + 1) * pageSize) <+: t.path n := by
    rw [prefix_iff_eq_take.mp hpk]
    exact take_prefix_take_left hle
  have hlen : (k.take ((i + 1) * pageSize)).length = (i + 1) * pageSize := by
    rw [length_take]
    exact min_eq_left (hle.trans hpk.length_le)
  refine (h _ _ _).mpr (w.binds_iff.mpr ⟨n, ⟨hstops.live, hr, (hstops.extra.resolve_left hr).symm, hpre, ?_, ?_⟩, ?_⟩)
  · refine length_pos_iff.mp ?_
    rw [hlen]
    exact mul_pos (succ_pos i) hps
  · rw [hlen]
    exact dvd_mul_left _ _
  · rw [hlen]

/-- A new leaf adds the pages of the key that were missing, with the value's slots. -/
theorem Represents.grow {k : ChildKey} {rest : RadixKey} (hgrown : Grown s s' n k rest (value.drop r)) (hlive : n ∈ t.live)
    (hextra : n = s.rootNode ∨ key.extraKey = (s.node n).key.extraKey) (hpos : 0 < rest.len)
    (hrest : rest.extraKey = key.extraKey) (hvalue : value.length = key.tokenIds.length)
    (hk : getChildKey pageSize rest = .ok k) (hfree : (s.node n).children.get? k = none) (hdvd : pageSize ∣ key.len)
    (hkey : key.tokenIds = t.path n ++ rest.tokenIds) (hr : r = (t.path n).length) :
    Represents s' (m.insert key.extraKey key.tokenIds value hvalue) ∧ m.longest key.extraKey key.tokenIds = r := by
  set t' := t.grow n s.counter rest.tokenIds (value.drop r)
  have hnk := w.live_known n hlive
  have hlens : (t.slots n).length = r := by rw [w.slots_length n hnk, hr]
  have hlen : (value.drop r).length = rest.len := by
    rw [length_drop, hvalue, hkey, length_append, hr, Nat.add_sub_cancel_left]
    rfl
  have w' := w.grow hgrown hlive hpos hlen hk hfree (hrest ▸ hextra)
  have hstops : Stops pageSize s t key n :=
    ⟨hlive, hextra, rest.tokenIds, hkey, fun _ => ⟨k, by rw [← hrest]; exact hk, hfree⟩⟩
  obtain ⟨hpages, hmul, -⟩ := hstops.pages w h hps al (take_pages hdvd)
  have hrdvd : pageSize ∣ r := hr ▸ al.path w n hnk
  -- of the key, exactly what leads to `n` is stored
  have hstored : ∀ p, p <+: key.tokenIds → p ≠ [] → pageSize ∣ p.length → p.length ≤ r →
    Stores pageSize s t key.extraKey p n := by
    intro p hpre hne hpd hle
    have hpn : p <+: t.path n :=
      prefix_of_prefix_length_le hpre (hkey ▸ prefix_append _ _) (hr ▸ hle)
    have hnr : n ≠ s.rootNode := by
      rintro rfl
      rw [w.root_path] at hpn
      exact hne (prefix_nil.mp hpn)
    exact ⟨hlive, hnr, (hextra.resolve_left hnr).symm, hpn, hne, hpd⟩
  have hshort : ∀ p x, p <+: key.tokenIds → Stores pageSize s t key.extraKey p x → p.length ≤ r := by
    intro p x hpre hx
    by_contra hlt
    have hle := add_page_le hrdvd hx.dvd (Nat.lt_of_not_le hlt)
    rw [hr] at hle
    have hplen := hpre.length_le
    have htake : key.tokenIds.take ((t.path n).length + pageSize) <+: p := by
      rw [prefix_iff_eq_take.mp hpre]
      exact take_prefix_take_left hle
    refine hstops.longest w al hps (hle.trans hplen) x ⟨hx.live, hx.not_root, hx.extra, htake.trans hx.pre, ?_, ?_⟩
    · refine length_pos_iff.mp ?_
      rw [length_take]
      omega
    · rw [length_take, min_eq_left (hle.trans hplen)]
      exact (Nat.dvd_add_right (hr ▸ hrdvd)).mpr (dvd_refl _)
  have hpathnew : t'.path s.counter = key.tokenIds := by
    simp [t', View.grow, hkey]
  have hslotsnew : t'.slots s.counter = t.slots n ++ value.drop r := by
    simp [t', View.grow]
  refine ⟨fun e p v => ?_, by rw [PrefixMap.longest, hpages, hmul, hr]⟩
  have hold : ∀ x, x ∈ t.live → (Stores pageSize s' t' e p x ↔
      Stores pageSize s t e p x) ∧ t'.slots x = t.slots x := by
    intro x hx
    have hxn := (w.live_known x hx).ne_counter
    have hpath : t'.path x = t.path x := by simp [t', View.grow, hxn]
    have hkeyx : (s'.node x).key = (s.node x).key := by rw [hgrown.key_, if_neg hxn]
    refine ⟨⟨fun h => ⟨hx, hgrown.root ▸ h.not_root, hkeyx ▸ h.extra, hpath ▸ h.pre, h.ne, h.dvd⟩,
      fun h => ⟨Finset.mem_insert_of_mem hx, hgrown.root.symm ▸ h.not_root, hkeyx.symm ▸ h.extra,
        hpath.symm ▸ h.pre, h.ne, h.dvd⟩⟩, by simp [t', View.grow, hxn]⟩
  rw [w'.binds_iff, PrefixMap.get_insert]
  constructor
  · rintro (hv | ⟨hnone, rfl, hpre, hne, hpd, rfl⟩)
    · obtain ⟨x, hx, rfl⟩ := w.binds_iff.mp ((h e p v).mp hv)
      obtain ⟨hiff, hslots⟩ := hold x hx.live
      exact ⟨x, hiff.mpr hx, by rw [hslots]⟩
    · refine ⟨s.counter, ⟨Finset.mem_insert_self _ _, ?_, ?_, hpathnew ▸ hpre, hne, hpd⟩, ?_⟩
      · rw [hgrown.root]
        exact ne_of_gt w.root_lt
      · rw [hgrown.key_, if_pos rfl]
        exact hrest
      rw [hslotsnew]
      refine (lastPage_append_drop hlens ?_).symm
      refine add_page_le hrdvd hpd (Nat.lt_of_not_le fun hle => ?_)
      have := (h _ p _).mpr (w.binds_iff.mpr ⟨n, hstored p hpre hne hpd hle, rfl⟩)
      rw [hnone] at this
      cases this
  · rintro ⟨x, hx, rfl⟩
    rcases Finset.mem_insert.mp hx.live with rfl | hxlive
    · have he : e = key.extraKey := by
        have := hx.extra
        rw [hgrown.key_, if_pos rfl, hrest] at this
        exact this.symm
      have hpre : p <+: key.tokenIds := hpathnew ▸ hx.pre
      rw [hslotsnew, he]
      by_cases hle : p.length ≤ r
      · left
        refine (h _ p _).mpr (w.binds_iff.mpr ⟨n, hstored p hpre hx.ne hx.dvd hle, lastPage_of_take_eq ?_⟩)
        rw [take_append_of_le_length (hlens ▸ hle)]
      right
      refine ⟨?_, rfl, hpre, hx.ne, hx.dvd, lastPage_append_drop hlens (add_page_le hrdvd hx.dvd (Nat.lt_of_not_le hle))⟩
      by_contra hsome
      obtain ⟨v, hv⟩ := Option.ne_none_iff_exists'.mp hsome
      obtain ⟨y, hy, -⟩ := w.binds_iff.mp ((h _ p v).mp hv)
      exact hle (hshort p y hpre hy)
    · obtain ⟨hiff, hslots⟩ := hold x hxlive
      exact .inl ((h e p _).mpr (w.binds_iff.mpr ⟨x, hiff.mp hx, by rw [hslots]⟩))

end

end

section
variable (al : AlignedTree pageSize s)
include al

theorem AlignedTree.sameTree (h : SameTree s s') : AlignedTree pageSize s' := by
  intro n hn hr
  rw [h.key]
  exact al n (h.known.mp hn) (h.root ▸ hr)

theorem AlignedTree.evicts {xs : List NodeId} (h : Evicts s t xs s' t') : AlignedTree pageSize s' := by
  intro n hn hr
  unfold Known at hn
  rw [h.root, h.counter] at hn
  rw [(h.node_eq n).1]
  exact al n hn (h.root ▸ hr)

theorem AlignedTree.inserted (hps : 0 < pageSize) (w : Wf pageSize s t)
    (hdvd : pageSize ∣ key.len) (h : Inserted pageSize s t key value s' t' r) : AlignedTree pageSize s' := by
  cases h with
  | present hsteps _ _ _ => exact hsteps.aligned hps w al
  | @leaf s1 t1 n _ _ k rest restValue hsteps hlive _ hgrown _ _ _ _ _ hon =>
    have al1 := hsteps.aligned hps w al
    have w1 := hsteps.wf hps w
    intro x hx hr
    rw [hgrown.root] at hr
    rw [hgrown.key_]
    split
    · have hlen := congrArg length (hon al hdvd).1
      rw [length_append] at hlen
      exact (Nat.dvd_add_right (al1.path w1 n (w1.live_known n hlive))).mp (hlen ▸ hdvd)
    rename_i hne
    unfold Known at hx
    rw [hgrown.root, hgrown.counter] at hx
    exact al1 x ⟨hx.1, lt_of_le_of_ne (Nat.lt_succ_iff.mp hx.2) hne⟩ hr

theorem Represents.inserted (hps : 0 < pageSize) (w : Wf pageSize s t) (h : Represents s m)
    (hvalue : value.length = key.tokenIds.length)
    (hdvd : pageSize ∣ key.len) (hins : Inserted pageSize s t key value s' t' r) :
    Represents s' (m.insert key.extraKey key.tokenIds value hvalue) ∧ m.longest key.extraKey key.tokenIds = r := by
  cases hins with
  | @present _ t1 n _ hsteps hlive hextra hon =>
    obtain ⟨hkey, rfl⟩ := hon al hdvd
    have w1 := hsteps.wf hps w
    have al1 := hsteps.aligned hps w al
    have h1 := h.steps w hps hsteps
    have hstops : Stops pageSize s' t' key n := ⟨hlive, hextra, [], by rw [append_nil, hkey], absurd rfl⟩
    obtain ⟨hpages, hmul, -⟩ := hstops.pages w1 h1 hps al1 (take_pages hdvd)
    refine ⟨fun e p v => ?_, ?_⟩
    · -- every page of the key is stored already
      rw [PrefixMap.get_insert, h1 e p v]
      refine or_iff_left ?_
      rintro ⟨hnone, rfl, hpre, hne, hpd, -⟩
      have hr : n ≠ s'.rootNode := by
        rintro rfl
        rw [w1.root_path] at hkey
        rw [hkey] at hpre
        exact hne (prefix_nil.mp hpre)
      have := (h1 key.extraKey p _).mpr (w1.binds_iff.mpr
        ⟨n, ⟨hlive, hr, (hextra.resolve_left hr).symm, hkey ▸ hpre, hne, hpd⟩, rfl⟩)
      rw [hnone] at this
      cases this
    · rw [PrefixMap.longest, hpages, hmul, ← hkey]
      rfl
  | @leaf s1 t1 n _ _ k rest restValue hsteps hlive hextra hgrown hpos hrest hlen hk hfree hon =>
    obtain ⟨hkey, hr, rfl⟩ := hon al hdvd
    exact (h.steps w hps hsteps).grow (hsteps.wf hps w) hps (hsteps.aligned hps w al) hgrown hlive hextra hpos hrest hvalue
      hk hfree hdvd hkey hr

end

/-! ## The refinement -/

/-- The states that calls on a cache lead to. Values are as long as their keys, and these
    are whole pages; a lock may be taken or given back on any node made since the last
    `reset`. -/
inductive Reach (cfg : Config) : RadixCache → Prop where
  | init : Reach cfg (init cfg)
  | insert {s s' : RadixCache} {key : RadixKey} {value : List Nat} {r : Nat} : Reach cfg s → cfg.pageSize ∣ key.len →
    value.length = key.len →
      RadixCache.insert cfg s key value = .ok (s', r) → Reach cfg s'
  | matchPrefix {s s' : RadixCache} {key : RadixKey} {r : MatchResult} : Reach cfg s → matchPrefix cfg s key = .ok (s', r) →
    Reach cfg s'
  | evict {s s' : RadixCache} {numTokens : Int} {freed : List (List Nat)} : Reach cfg s →
    evict cfg s numTokens = .ok (s', freed) → Reach cfg s'
  | incLockRef {s s' : RadixCache} {n : NodeId} {d : Int} : Reach cfg s → s.Known n → incLockRef cfg s n = .ok (s', d) →
    Reach cfg s'
  | decLockRef {s s' : RadixCache} {n : NodeId} {d : Int} : Reach cfg s → s.Known n → decLockRef cfg s n = .ok (s', d) →
    Reach cfg s'
  | reset {s : RadixCache} : Reach cfg s → Reach cfg (reset cfg s)

/-- The cache at `s` behaves as the map `m`, call by call. -/
structure Refines (cfg : Config) (s : RadixCache) (m : SlotMap cfg.pageSize) : Prop where
  represents : Represents s m
  matchPrefix : ∀ key, ∃ s' n, matchPrefix cfg s key = .ok (s', ⟨m.lookup key.extraKey key.tokenIds, n⟩) ∧ Represents s' m
  insert : ∀ (key : RadixKey) (value : List Nat) (hv : value.length = key.tokenIds.length), cfg.pageSize ∣ key.len →
    ∃ s', RadixCache.insert cfg s key value = .ok (s', m.longest key.extraKey key.tokenIds) ∧
      Represents s' (m.insert key.extraKey key.tokenIds value hv)
  evict : ∀ numTokens, ∃ s' freed m', evict cfg s numTokens = .ok (s', freed) ∧ Represents s' m' ∧ m' ≤ m
  locks : ∀ n, s.Known n → (∃ s' d, incLockRef cfg s n = .ok (s', d) ∧ Represents s' m) ∧
    (∃ s' d, decLockRef cfg s n = .ok (s', d) ∧ Represents s' m)
  reset : Represents (reset cfg s) (PrefixMap.empty : SlotMap cfg.pageSize)
  /-- Below a node other than the root all nodes have its extra key. -/
  namespaces : ∀ n q w k c, Path s n q w → n ≠ s.rootNode → (k, c) ∈ (s.node n).children.items →
    (s.node c).key.extraKey = (s.node n).key.extraKey

theorem insertKey_plain (he : cfg.isEagle = false) (key : RadixKey) : insertKey cfg key = key := by
  simp [insertKey, keyConvertFn, he]

theorem lookupKey_plain (he : cfg.isEagle = false) (key : RadixKey) : (lookupKey cfg key).extraKey = key.extraKey ∧
      (lookupKey cfg key).tokenIds = key.tokenIds.take (key.tokenIds.length / cfg.pageSize * cfg.pageSize) := by
  simp [lookupKey, keyConvertFn, he, pageAlign]

theorem reach_aligned (hps : 0 < cfg.pageSize) (hd : cfg.disable = false) (he : cfg.isEagle = false) (h : Reach cfg s) :
    ∃ t, Wf cfg.pageSize s t ∧ AlignedTree cfg.pageSize s := by
  have hreset : ∀ s, AlignedTree cfg.pageSize (reset cfg s) := fun s n hn hr => absurd (reset_known hn) hr
  induction h with
  | init => exact ⟨_, reset_wf cfg _, hreset _⟩
  | reset _ _ => exact ⟨_, reset_wf cfg _, hreset _⟩
  | @insert s s' key value r _ hdvd hlen hcall ih =>
    obtain ⟨t, w, al⟩ := ih
    obtain ⟨s1, t1, r1, hs1, hins⟩ := insert_spec hps hd w key (.inl (by rw [insertKey_plain he]; exact hlen))
    rw [hcall] at hs1
    cases hs1
    rw [insertKey_plain he] at hins
    exact ⟨t1, hins.wf hps w, al.inserted hps w hdvd hins⟩
  | @matchPrefix s s' key r _ hcall ih =>
    obtain ⟨t, w, al⟩ := ih
    obtain ⟨s1, t1, n, hs1, hsteps, -⟩ := matchPrefix_spec hps hd w key
    rw [hcall] at hs1
    cases hs1
    exact ⟨t1, hsteps.wf hps w, hsteps.aligned hps w al⟩
  | @evict s s' numTokens freed _ hcall ih =>
    obtain ⟨t, w, al⟩ := ih
    obtain ⟨s1, t1, xs, hs1, hev, -⟩ := evict_spec hd w numTokens
    rw [hcall] at hs1
    cases hs1
    exact ⟨t1, hev.wf w, al.evicts hev⟩
  | @incLockRef s s' n d _ hn hcall ih =>
    obtain ⟨t, w, al⟩ := ih
    obtain ⟨d1, hs1, hsame⟩ := incLockRef_spec hd w hn
    rw [hcall] at hs1
    cases hs1
    exact ⟨t, w.sameTree hsame, al.sameTree hsame⟩
  | @decLockRef s s' n d _ hn hcall ih =>
    obtain ⟨t, w, al⟩ := ih
    obtain ⟨d1, hs1, hsame⟩ := decLockRef_spec hd w hn
    rw [hcall] at hs1
    cases hs1
    exact ⟨t, w.sameTree hsame, al.sameTree hsame⟩

theorem radixCache_refines (hps : 0 < cfg.pageSize) (hd : cfg.disable = false) (he : cfg.isEagle = false)
    (h : Reach cfg s) : ∃ m : SlotMap cfg.pageSize, Refines cfg s m := by
  obtain ⟨t, w, al⟩ := reach_aligned hps hd he h
  obtain ⟨m, hm⟩ := exists_represents w al
  refine ⟨m, hm, ?_, ?_, ?_, ?_, ?_, ?_⟩
  · intro key
    obtain ⟨s', t', n, hs', hsteps, -, hstops⟩ := matchPrefix_spec hps hd w key
    have hm' := hm.steps w hps hsteps
    obtain ⟨hextra, htokens⟩ := lookupKey_plain he key
    have hlookup := (hstops al).lookup (hsteps.wf hps w) hm' hps (hsteps.aligned hps w al) htokens
    rw [hextra] at hlookup
    exact ⟨s', n, by rw [hlookup]; exact hs', hm'⟩
  · intro key value hv hdvd
    obtain ⟨s', t', r, hs', hins⟩ := insert_spec hps hd w key (.inl (by rw [insertKey_plain he]; exact hv))
    rw [insertKey_plain he, show value.take key.len = value by unfold RadixKey.len; rw [← hv, take_length]] at hins
    obtain ⟨hm', hr⟩ := hm.inserted al hps w hv hdvd hins
    exact ⟨s', by rw [hr]; exact hs', hm'⟩
  · intro numTokens
    obtain ⟨s', t', xs, hs', hev, -⟩ := evict_spec hd w numTokens
    obtain ⟨m', hm'⟩ := exists_represents (hev.wf w) (al.evicts hev)
    refine ⟨s', _, m', hs', hm', fun e p v hv => ?_⟩
    obtain ⟨n, hn, rfl⟩ := (hev.wf w).binds_iff.mp ((hm' e p v).mp hv)
    obtain ⟨hpath, hslots, -, hlive⟩ := hev.view_eq
    refine (hm e p _).mpr (w.binds_iff.mpr ⟨n, ⟨?_, hev.root ▸ hn.not_root, (hev.node_eq n).1 ▸ hn.extra, hpath ▸ hn.pre,
      hn.ne, hn.dvd⟩, by rw [hslots]⟩)
    exact (Finset.mem_filter.mp (hlive ▸ hn.live)).1
  · intro n hn
    obtain ⟨d, hinc, hsame⟩ := incLockRef_spec hd w hn
    obtain ⟨d', hdec, hsame'⟩ := decLockRef_spec hd w hn
    exact ⟨⟨_, d, hinc, hm.sameTree w hsame⟩, ⟨_, d', hdec, hm.sameTree w hsame'⟩⟩
  · intro e p v
    rw [(reset_wf cfg s).binds_iff]
    constructor
    · nofun
    · rintro ⟨n, hn, -⟩
      exact absurd (Finset.mem_singleton.mp hn.live) hn.not_root
  · intro n q v k c hpath hr hk
    obtain ⟨hlive, -, -⟩ := w.path_iff.mp hpath
    obtain ⟨hc, hcr, hp, -⟩ := (w.child_iff n hlive k c).mp hk
    exact (w.extra_parent hc hcr hp hr).symm

/-- A cache with the given page size and all defaults, on a clock that counts its readings. -/
def plainConfig (pageSize : Nat) : Config := { pageSize, monotonic := fun n => n, hash := fun l => l.length }

/-- Two pages under one key, and a lookup that splits their node. -/
theorem radixCache_refines_split :
    ∃ s s', RadixCache.insert (plainConfig 2) (init (plainConfig 2)) ⟨[.id 1, .id 2, .id 3, .id 4], none⟩ [10, 11, 12, 13] =
    .ok (s, 0) ∧
      matchPrefix (plainConfig 2) s ⟨[.id 1, .id 2, .id 9], none⟩ = .ok (s', ⟨[10, 11], 2⟩) ∧
      ∃ m : SlotMap 2, Refines (plainConfig 2) s' m := by
  have hins : ∃ s, RadixCache.insert (plainConfig 2) (init (plainConfig 2)) ⟨[.id 1, .id 2, .id 3, .id 4], none⟩
      [10, 11, 12, 13] = .ok (s, 0) ∧
      ∃ s', matchPrefix (plainConfig 2) s ⟨[.id 1, .id 2, .id 9], none⟩ = .ok (s', ⟨[10, 11], 2⟩) := ⟨_, rfl, _, rfl⟩
  obtain ⟨s, hs, s', hs'⟩ := hins
  refine ⟨s, s', hs, hs', radixCache_refines (by decide) rfl rfl (.matchPrefix (.insert .init ?_ ?_ hs) hs')⟩
  · exact ⟨2, rfl⟩
  · rfl

end RadixCache

end DynaSpec.MemCache
