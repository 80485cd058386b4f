import XGossip.Gossip.Lists
import XGossip.Gossip.Signcmp
import XGossip.NodeParams

namespace XGossip
set_option autoImplicit true

section Code

/-- `x + y` -/
def add? (x y : Option ℚ) : Option ℚ := do return (← x) + (← y)

/-- The lower one of two similarities; one that is not a number does not change the first. -/
def lower (minsim cursim : Option ℚ) : Option ℚ :=
  match minsim, cursim with
  | some x, some y => if x > y then some y else some x
  | _, _ => minsim

/-- The results of `run_query`: its reference arguments and the two globals for the proxy signature.
A `double` is `none` if it is not a number. -/
structure QueryResult where
  sigmatches : Int
  totalavg : Option ℚ
  minsim : Option ℚ
  avgsim : Option ℚ
  proxyminsim : Option ℚ
  proxyavgsim : Option ℚ

/-- `sigmatches` and `totalavg` are not initialized. -/
def QueryResult.init (sigmatches : Int) (totalavg : ℚ) : QueryResult :=
  ⟨sigmatches, totalavg, some 1, some 0, some 1, some 0⟩

def QueryResult.finish (r : QueryResult) : QueryResult :=
  { r with
    avgsim := do divide? (← r.avgsim) r.sigmatches
    proxyavgsim := do divide? (← r.proxyavgsim) r.sigmatches }

variable (gproxysig : Sig) (querysig : Sig)

def similarities (useproxy : Bool) (sig : Sig) (r : QueryResult) : Option QueryResult := do
  let (cursim, _) ← signcmp querysig sig
  let r := { r with avgsim := add? r.avgsim cursim, minsim := lower r.minsim cursim }
  if useproxy then
    let (cursim, _) ← signcmp gproxysig sig
    return { r with
      proxyavgsim := add? r.proxyavgsim cursim
      proxyminsim := lower r.proxyminsim cursim }
  else return r

/-- One entry of the list: it counts if all elements of the query are found in it. -/
def superset (useproxy : Bool) (r : QueryResult) (e : Sig × ℚ × ℚ) : Option QueryResult :=
  if (setInterNoskip querysig e.1).1 = querysig.length then
    similarities gproxysig querysig useproxy e.1 { r with
      sigmatches := r.sigmatches + 1
      totalavg := add? r.totalavg (divide? e.2.1 e.2.2) }
  else some r

/-- `run_query`, without what it prints: its return value and results. `none` if it reads behind a
vector. -/
def runQuery (totalT : List (Vecomap ℚ)) (tind : Nat) (sigmatches : Int) (totalavg : ℚ)
    (msgtype : InsertType) (useproxy : Bool) : Option (Int × QueryResult) := do
  let r := QueryResult.init sigmatches totalavg
  match msgtype with
  | .QUERYS =>
    let m ← (← totalT[tind]?).head?
    match m.find? querysig with
    | some v =>
      let r := { r with
        sigmatches := r.sigmatches + 1
        totalavg := add? r.totalavg (divide? v.1 v.2) }
      return (0, r.finish)
    | none => return (0, r.finish)
  | .QUERYX | .QUERYXP =>
    let m ← (← totalT[tind]?).head?
    let r ← m.entries.foldlM (superset gproxysig querysig useproxy) r
    return (0, r.finish)
  | _ => return (-1, r)

end Code

section Supersets

variable {gproxysig querysig : Sig} {useproxy : Bool}

/-- The entries whose signatures contain the query as a multiset. -/
def supersets (querysig : Sig) (entries : List (Sig × ℚ × ℚ)) : List (Sig × ℚ × ℚ) :=
  entries.filter fun e => querysig.Subperm e.1

def ProxyFits (gproxysig querysig : Sig) (useproxy : Bool) (entries : List (Sig × ℚ × ℚ)) : Prop :=
  useproxy = true → gproxysig = [] → supersets querysig entries = []

theorem signcmp_of_ne (h1 : s1 ≠ []) (h2 : s2 ≠ []) : ∃ sim, signcmp s1 s2 = some sim := by
  rw [signcmp, setUni_eq h1 h2]
  exact ⟨_, rfl⟩

theorem similarities_spec (r : QueryResult) (hq : querysig ≠ []) (hsig : sig ≠ []) :
    (useproxy = true → gproxysig ≠ []) ∧ (∃ r', similarities gproxysig querysig useproxy sig r =
        some r' ∧ r'.sigmatches = r.sigmatches ∧ r'.totalavg = r.totalavg) ∨
      (useproxy = true ∧ gproxysig = []) ∧
        similarities gproxysig querysig useproxy sig r = none := by
  obtain ⟨sim, hsim⟩ := signcmp_of_ne hq hsig
  simp only [similarities, hsim, Option.bind_eq_bind, Option.bind_some]
  cases useproxy with
  | false => exact .inl ⟨nofun, _, rfl, rfl, rfl⟩
  | true =>
    cases gproxysig with
    | nil => exact .inr ⟨⟨rfl, rfl⟩, rfl⟩
    | cons p proxy =>
      obtain ⟨sim', hsim'⟩ := signcmp_of_ne (List.cons_ne_nil p proxy) hsig
      rw [hsim']
      exact .inl ⟨fun _ => List.cons_ne_nil p proxy, _, rfl, rfl, rfl⟩

theorem superset_of_not (r : QueryResult) (hq : querysig.Pairwise (· ≤ ·))
    (hs : e.1.Pairwise (· ≤ ·))
    (h : ¬ querysig.Subperm e.1) : superset gproxysig querysig useproxy r e = some r := by
  rw [superset, if_neg (mt (setInterNoskip_iff hq hs).1 h)]

theorem superset_spec {r : QueryResult} (hq : querysig.Pairwise (· ≤ ·)) (hne : querysig ≠ [])
    (ht : r.totalavg = some t) (hs : e.1.Pairwise (· ≤ ·)) (hw : e.2.2 ≠ 0) (h : querysig.Subperm e.1) :
    (useproxy = true → gproxysig ≠ []) ∧ (∃ r', superset gproxysig querysig useproxy r e =
        some r' ∧ r'.sigmatches = r.sigmatches + 1 ∧ r'.totalavg = some (t + e.2.1 / e.2.2)) ∨
      (useproxy = true ∧ gproxysig = []) ∧ superset gproxysig querysig useproxy r e = none := by
  have hsig : e.1 ≠ [] := by
    intro hnil
    rw [hnil] at h
    exact hne (List.subperm_nil.1 h)
  rw [superset, if_pos ((setInterNoskip_iff hq hs).2 h)]
  rcases similarities_spec _ hne hsig with ⟨hproxy, r', hr', hmatches, havg⟩ | hnone
  · refine .inl ⟨hproxy, r', hr', hmatches, ?_⟩
    rw [havg, divide?, if_neg hw, ht]
    rfl
  · exact .inr hnone

/-- The loop over the entries of a list. -/
theorem foldlM_superset (gproxysig : Sig) (useproxy : Bool) {r : QueryResult}
    (hq : querysig.Pairwise (· ≤ ·)) (hne : querysig ≠ []) (ht : r.totalavg = some t)
    (hs : ∀ e ∈ entries, e.1.Pairwise (· ≤ ·)) (hw : ∀ e ∈ entries, e.2.2 ≠ 0) :
    ProxyFits gproxysig querysig useproxy entries ∧
        (∃ r', entries.foldlM (superset gproxysig querysig useproxy) r = some r' ∧
          r'.sigmatches = r.sigmatches + (supersets querysig entries).length ∧
            r'.totalavg = some (t + ((supersets querysig entries).map fun e => e.2.1 / e.2.2).sum)) ∨
      ¬ ProxyFits gproxysig querysig useproxy entries ∧
        entries.foldlM (superset gproxysig querysig useproxy) r = none := by
  induction entries generalizing r t with
  | nil => exact .inl ⟨fun _ _ => rfl, r, rfl, by simp [supersets], by simp [supersets, ht]⟩
  | cons e entries ih =>
    obtain ⟨hse, hs⟩ := List.forall_mem_cons.1 hs
    obtain ⟨hwe, hw⟩ := List.forall_mem_cons.1 hw
    rw [List.foldlM_cons]
    by_cases h : querysig.Subperm e.1
    · have hcons : supersets querysig (e :: entries) = e :: supersets querysig entries := by
        rw [supersets, List.filter_cons_of_pos (by simpa using h), supersets]
      rcases superset_spec hq hne ht hse hwe h with ⟨hproxy, r₁, hr₁, hmatches, havg⟩ | ⟨hnil, hnone⟩
      · rw [hr₁]
        rcases ih havg hs hw with ⟨hfits, r', hr', hm', ha'⟩ | ⟨hno, -⟩
        · refine .inl ⟨fun hu hg => (hproxy hu hg).elim, r', hr', ?_, ?_⟩
          · rw [hm', hmatches, hcons, List.length_cons]
            omega
          · rw [ha', hcons, List.map_cons, List.sum_cons, add_assoc]
        · exact (hno fun hu hg => (hproxy hu hg).elim).elim
      · rw [hnone]
        refine .inr ⟨fun hfits => ?_, rfl⟩
        exact List.cons_ne_nil _ _ (hcons.symm.trans (hfits hnil.1 hnil.2))
    · have hcons : supersets querysig (e :: entries) = supersets querysig entries := by
        rw [supersets, List.filter_cons_of_neg (by simpa using h), supersets]
      rw [superset_of_not r hq hse h, ProxyFits, hcons]
      exact ih ht hs hw

theorem runQuery_eq {totalT : List (Vecomap ℚ)} {m : MapType ℚ}
    (hm : (totalT[tind]?).bind List.head? = some m)
    (htype : msgtype = .QUERYX ∨ msgtype = .QUERYXP) :
    runQuery gproxysig querysig totalT tind sigmatches totalavg msgtype useproxy =
      (m.entries.foldlM (superset gproxysig querysig useproxy)
        (.init sigmatches totalavg)).map fun r => (0, r.finish) := by
  obtain ⟨v, hv, hhead⟩ := Option.bind_eq_some_iff.1 hm
  rcases htype with rfl | rfl
  · simp only [runQuery, hv, hhead, Option.bind_eq_bind, Option.bind_some, Option.map_eq_bind]
    rfl
  · simp only [runQuery, hv, hhead, Option.bind_eq_bind, Option.bind_some, Option.map_eq_bind]
    rfl

/-- A query for supersets counts exactly these and adds up their averages if and only if there is a
proxy signature where one is compared with them. -/
theorem runQuery_supersets_iff {totalT : List (Vecomap ℚ)} {m : MapType ℚ}
    (hq : querysig.Pairwise (· ≤ ·)) (hne : querysig ≠ [])
    (hm : (totalT[tind]?).bind List.head? = some m)
    (hkeys : ∀ s ∈ m.keys, s.Pairwise (· ≤ ·)) (hw : ∀ e ∈ m.entries, e.2.2 ≠ 0)
    (htype : msgtype = .QUERYX ∨ msgtype = .QUERYXP) (sigmatches : Int) (totalavg : ℚ) :
    (∃ r, runQuery gproxysig querysig totalT tind sigmatches totalavg msgtype useproxy =
        some (0, r) ∧ r.sigmatches = sigmatches + (supersets querysig m.entries).length ∧
          r.totalavg = some (totalavg +
            ((supersets querysig m.entries).map fun e => e.2.1 / e.2.2).sum)) ↔
      ProxyFits gproxysig querysig useproxy m.entries := by
  have hs : ∀ e ∈ m.entries, e.1.Pairwise (· ≤ ·) := fun e he =>
    hkeys e.1 (List.mem_map_of_mem he)
  rw [runQuery_eq hm htype]
  rcases foldlM_superset gproxysig useproxy (r := .init sigmatches totalavg) hq hne rfl hs hw with
    ⟨hfits, r', hr', hmatches, havg⟩ | ⟨hno, hnone⟩
  · rw [hr']
    exact ⟨fun _ => hfits, fun _ => ⟨_, rfl, hmatches, havg⟩⟩
  · rw [hnone]
    exact ⟨fun ⟨_, hr, _⟩ => (nomatch hr), fun hfits => (hno hfits).elim⟩

end Supersets

def oneSuperset : MapType ℚ := ⟨[([3, 7], (2, 4))], by decide⟩

theorem supersets_oneSuperset : supersets [3] oneSuperset.entries = [([3, 7], (2, 4))] := by
  decide

theorem runQuery_supersets_iff_one : ∃ r,
    runQuery [5] [3] [[oneSuperset]] 0 0 0 .QUERYXP true = some (0, r) ∧ r.sigmatches = 1 ∧
      r.totalavg = some (1 / 2) := by
  have hw : ∀ e ∈ oneSuperset.entries, e.2.2 ≠ 0 := by simp [oneSuperset]
  have hq : ([3] : Sig).Pairwise (· ≤ ·) := by decide
  have hfits : ProxyFits [5] [3] true oneSuperset.entries := fun _ hproxy =>
    (List.cons_ne_nil _ _ hproxy).elim
  have hm : ([[oneSuperset]][0]?).bind List.head? = some oneSuperset := rfl
  obtain ⟨r, hr, hmatches, havg⟩ := (runQuery_supersets_iff hq (by decide) hm (by decide) hw
    (.inr rfl) 0 0).2 hfits
  rw [supersets_oneSuperset] at hmatches havg
  refine ⟨r, hr, hmatches, havg.trans (congrArg some ?_)⟩
  norm_num

/-- The superset would be compared with a proxy signature that is not there. -/
theorem runQuery_no_proxy : supersets [3] oneSuperset.entries = [([3, 7], (2, 4))] ∧
    runQuery [] [3] [[oneSuperset]] 0 0 0 .QUERYX true = none := by
  have hw : ∀ e ∈ oneSuperset.entries, e.2.2 ≠ 0 := by simp [oneSuperset]
  refine ⟨supersets_oneSuperset, ?_⟩
  rw [runQuery_eq (m := oneSuperset) rfl (.inl rfl)]
  have hq : ([3] : Sig).Pairwise (· ≤ ·) := by decide
  rcases foldlM_superset [] true (r := .init 0 0) hq (by decide) rfl
    (show ∀ e ∈ oneSuperset.entries, e.1.Pairwise (· ≤ ·) by decide) hw with ⟨hfits, -⟩ | ⟨-, hnone⟩
  · exact absurd ((hfits rfl rfl).symm.trans supersets_oneSuperset) (List.cons_ne_nil _ _).symm
  · rw [hnone]
    rfl

end XGossip
