import Keybinder.ListingOrder
import Keybinder.MapperLife

/-!
# Application triggers

An app-focused event looks for a stored name that contains its own or is
contained in it.  Two stored names, however different, are both contained
in the name that consists of one after the other; so the lookup has one
answer for every event exactly when at most one application is stored.
-/

namespace Keybinder

section Tables

variable {ν : Type} {table : List (InputEvent × ν)}

/-- Of the stored keys at most one compares equal to an app-focused event;
so what is found does not depend on the layout of the table, or on the order
in which its keys were stored. -/
structure Unambiguous (table : List (InputEvent × ν)) : Prop where
  one : ∀ appName, (table.filter fun entry ↦ entry.1.eq (.app appName)).length ≤ 1
  layoutFree : ∀ (H₁ H₂ : QHash) (table' : List (InputEvent × ν)), table.Perm table' →
    ∀ appName, H₁.find table (.app appName) = H₂.find table' (.app appName)

def apps (table : List (InputEvent × ν)) : List (InputEvent × ν) :=
  table.filter fun entry ↦ entry.1.isApp

theorem InputEvent.exists_name {e : InputEvent} (h : e.isApp = true) :
    ∃ appName, e = .app appName := by
  cases e with
  | app appName => exact ⟨appName, rfl⟩
  | key e => cases h

theorem InputEvent.isApp_of_eq {e e' : InputEvent} (h : e.eq e' = true) : e.isApp = e'.isApp := by
  cases e <;> cases e' <;> simp_all [eq, symbol, Symbol.eq, isApp]

/-- A name is contained in every name that it is a part of. -/
theorem InputEvent.app_eq_append (a b : String) :
    (InputEvent.app a).eq (.app (a ++ b)) = true ∧ (InputEvent.app b).eq (.app (a ++ b)) = true := by
  have hleft : toLower a <:+: toLower (a ++ b) := by
    rw [toLower_append]
    exact (List.prefix_append _ _).isInfix
  have hright : toLower b <:+: toLower (a ++ b) := by
    rw [toLower_append]
    exact (List.suffix_append _ _).isInfix
  simp [eq, symbol, Symbol.eq, hleft, hright]

theorem sublist_apps (appName : String) :
    (table.filter fun entry ↦ entry.1.eq (.app appName)).Sublist (apps table) := by
  apply List.monotone_filter_right
  intro entry heq
  exact InputEvent.isApp_of_eq heq

theorem unambiguous_iff : Unambiguous table ↔ (apps table).length ≤ 1 := by
  constructor
  · intro h
    by_contra hmany
    match happs : apps table with
    | [] => simp [happs] at hmany
    | [entry] => simp [happs] at hmany
    | entry :: entry' :: rest =>
        have hmem : ∀ e ∈ [entry, entry'], e ∈ apps table := by simp [happs]
        obtain ⟨a, ha⟩ := InputEvent.exists_name (List.mem_filter.mp (hmem entry (by simp))).2
        obtain ⟨b, hb⟩ := InputEvent.exists_name (List.mem_filter.mp (hmem entry' (by simp))).2
        obtain ⟨hleft, hright⟩ := InputEvent.app_eq_append a b
        have hsublist : [entry, entry'].Sublist table := by
          have hfirst : [entry, entry'].Sublist (apps table) := by
            rw [happs]
            exact ((List.nil_sublist rest).cons_cons entry').cons_cons entry
          exact hfirst.trans List.filter_sublist
        have hfound := hsublist.filter fun entry ↦ entry.1.eq (.app (a ++ b))
        have hlength := hfound.length_le
        rw [List.filter_cons_of_pos (by rw [ha]; exact hleft),
          List.filter_cons_of_pos (by rw [hb]; exact hright)] at hlength
        have hone := h.one (a ++ b)
        simp only [List.filter_nil, List.length_cons, List.length_nil] at hlength
        omega
  · intro h
    have hone : ∀ appName, (table.filter fun entry ↦ entry.1.eq (.app appName)).length ≤ 1 :=
      fun appName ↦ (sublist_apps appName).length_le.trans h
    exact ⟨hone, fun H₁ H₂ _ hperm appName ↦ H₁.find_perm H₂ hperm (hone appName)⟩

end Tables

namespace Trie

/-- The first app trigger that was put at a place. -/
def firstApp (T : Trie) (p : Place) : Option Placement :=
  T.find? fun x ↦ x.input.isApp && decide (x.src = p)

/-- Every app trigger compares equal to the first one that was put at its
place. -/
def AppsFollowFirst (T : Trie) : Prop :=
  ∀ before x after, T = before ++ x :: after → x.input.isApp = true →
    ∀ y ∈ firstApp before x.src, y.input.eq x.input = true

def appEdgesAt (T : Trie) (p : Place) : Trie := (T.edgesAt p).filter (·.stored.isApp)

variable {H : QHash} {T : Trie} {s : SequenceTrigger} {owner : ℕ} {p : Place} {pass : LoopPass}
  {x y : Placement}

theorem firstApp_eq_none : T.firstApp p = none ↔ ∀ y ∈ T, y.input.isApp = true → y.src ≠ p := by
  simp [firstApp, List.find?_eq_none]

theorem firstApp_append : firstApp (T ++ [x]) p =
    (T.firstApp p).or (if x.input.isApp = true ∧ x.src = p then some x else none) := by
  rw [firstApp, List.find?_append]
  by_cases hx : x.input.isApp = true ∧ x.src = p
  · simp [firstApp, hx]
  · have hno : (x.input.isApp && decide (x.src = p)) = false := by simpa using hx
    simp [firstApp, hx, hno]

theorem mem_appEdgesAt : y ∈ T.appEdgesAt p ↔
    y ∈ T ∧ y.fresh = true ∧ y.src = p ∧ y.stored.isApp = true := by
  simp [appEdgesAt, mem_edgesAt, and_assoc]

theorem appsFollowFirst_append : AppsFollowFirst (T ++ [x]) ↔ T.AppsFollowFirst ∧
    (x.input.isApp = true → ∀ y ∈ T.firstApp x.src, y.input.eq x.input = true) := by
  constructor
  · intro h
    refine ⟨fun before z after heq happ ↦ ?_, h T x [] (by simp)⟩
    exact h before z (after ++ [x]) (by simp [heq]) happ
  · rintro ⟨hT, hx⟩ before z after heq
    rcases List.eq_nil_or_concat after with rfl | ⟨after, w, rfl⟩
    · obtain ⟨rfl, hzx⟩ := List.append_inj' heq rfl
      obtain rfl : x = z := by simpa using hzx
      exact hx
    · have hsplit : T ++ [x] = (before ++ z :: after) ++ [w] := by simp [heq]
      exact hT before z after (List.append_inj' hsplit rfl).1

/-- The first app trigger at a place makes the edge there. -/
theorem Grows.firstApp_edge (hT : T.Grows H) (h : T.firstApp p = some y) :
    y ∈ T.appEdgesAt p ∧ y.stored = y.input := by
  induction hT with
  | nil => simp [firstApp] at h
  | @put T s owner q pass x hT hput ih =>
      rw [firstApp_append, Option.or_eq_some_iff] at h
      rcases h with h | ⟨hnone, hx⟩
      · obtain ⟨hy, hstored⟩ := ih h
        rw [mem_appEdgesAt] at hy ⊢
        exact ⟨⟨List.mem_append_left _ hy.1, hy.2⟩, hstored⟩
      · split at hx
        · rename_i happ
          obtain rfl := Option.some.inj hx
          cases hput with
          | shared hinput hfind hmem heq hlast hbehavior htimer =>
              -- The edge it shares would have been made by an app trigger.
              rename_i input z
              obtain ⟨hz, hfresh, hsrc⟩ := mem_edgesAt.mp hmem
              have hzapp : z.input.isApp = true := by
                rw [← (hT.fresh hz hfresh).1, InputEvent.isApp_of_eq heq]
                exact happ.1
              exact (firstApp_eq_none.mp hnone z hz hzapp (hsrc.trans happ.2)).elim
          | fresh hinput hfind hne =>
              rw [mem_appEdgesAt]
              exact ⟨⟨by simp, rfl, happ.2, happ.1⟩, rfl⟩
        · cases hx

theorem appEdgesAt_append : appEdgesAt (T ++ [x]) p =
    T.appEdgesAt p ++
      if x.fresh = true ∧ x.src = p ∧ x.stored.isApp = true then [x] else [] := by
  rw [appEdgesAt, edgesAt_append, List.filter_append]
  by_cases hx : x.fresh = true ∧ x.src = p
  · by_cases happ : x.stored.isApp = true <;> simp [appEdgesAt, hx, happ]
  · have hno : ¬ (x.fresh = true ∧ x.src = p ∧ x.stored.isApp = true) := fun h ↦ hx ⟨h.1, h.2.1⟩
    rw [if_neg hx, if_neg hno]
    rfl

theorem length_appEdgesAt_append : (∀ p, (appEdgesAt (T ++ [x]) p).length ≤ 1) ↔
    (∀ p, (T.appEdgesAt p).length ≤ 1) ∧
      (x.fresh = true → x.stored.isApp = true → T.appEdgesAt x.src = []) := by
  simp only [appEdgesAt_append, List.length_append]
  constructor
  · intro h
    refine ⟨fun p ↦ (Nat.le_add_right _ _).trans (h p), fun hfresh happ ↦ ?_⟩
    have hsrc := h x.src
    rw [if_pos ⟨hfresh, rfl, happ⟩, List.length_singleton] at hsrc
    exact List.length_eq_zero_iff.mp (by omega)
  · rintro ⟨hT, hx⟩ p
    split
    · rename_i hp
      obtain ⟨hfresh, rfl, happ⟩ := hp
      simp [hx hfresh happ]
    · exact hT p

theorem Grows.appEdgesAt_eq_nil (hT : T.Grows H) (h : T.firstApp p = none) :
    T.appEdgesAt p = [] := by
  rw [List.eq_nil_iff_forall_not_mem]
  intro y hy
  obtain ⟨hyT, hfresh, hsrc, happ⟩ := mem_appEdgesAt.mp hy
  rw [(hT.fresh hyT hfresh).1] at happ
  exact firstApp_eq_none.mp h y hyT happ hsrc

theorem Grows.follows_iff (hT : T.Grows H) (hput : Puts H T s owner p pass x)
    (hone : ∀ p, (T.appEdgesAt p).length ≤ 1) :
    (x.input.isApp = true → ∀ y ∈ T.firstApp x.src, y.input.eq x.input = true) ↔
      (x.fresh = true → x.stored.isApp = true → T.appEdgesAt x.src = []) := by
  cases hput with
  | shared hinput hfind hmem heq hlast hbehavior htimer =>
      rename_i input z
      simp only [Bool.false_eq_true, false_imp_iff, iff_true]
      intro happ y hy
      obtain ⟨hyedge, hstored⟩ := hT.firstApp_edge hy
      obtain ⟨hz, hfresh, hsrc⟩ := mem_edgesAt.mp hmem
      have hzapp : z.stored.isApp = true := (InputEvent.isApp_of_eq heq).trans happ
      have hzedge : z ∈ T.appEdgesAt p := mem_appEdgesAt.mpr ⟨hz, hfresh, hsrc, hzapp⟩
      have hyz : y = z := by
        obtain ⟨w, hw⟩ := List.length_eq_one_iff.mp
          (Nat.le_antisymm (hone p) (List.length_pos_of_mem hzedge))
        rw [hw, List.mem_singleton] at hyedge hzedge
        rw [hyedge, hzedge]
      rw [← hstored, hyz]
      exact heq
  | fresh hinput hfind hne =>
      constructor
      · intro h _ happ
        cases hfirst : T.firstApp p with
        | none => exact hT.appEdgesAt_eq_nil hfirst
        | some w =>
            obtain ⟨hw, hstored⟩ := hT.firstApp_edge hfirst
            have hno := hne w (List.mem_filter.mp hw).1
            rw [hstored, h happ w hfirst] at hno
            cases hno
      · intro h happ y hy
        have hedge := (hT.firstApp_edge hy).1
        rw [h rfl happ] at hedge
        cases hedge

theorem Grows.appsFollowFirst_iff (hT : T.Grows H) :
    T.AppsFollowFirst ↔ ∀ p, (T.appEdgesAt p).length ≤ 1 := by
  induction hT with
  | nil => simp [AppsFollowFirst, appEdgesAt, edgesAt]
  | put hT hput ih =>
      rw [appsFollowFirst_append, length_appEdgesAt_append, ih]
      exact and_congr_right fun hone ↦ hT.follows_iff hput hone

end Trie

namespace Layer

/-- At most one basic remapping of the layer is for an application. -/
def OneAppRemapping (layer : Layer) : Prop :=
  (layer.basicRemappings.filter fun remapping ↦ remapping.1.triggerToInput.isApp).length ≤ 1

/-- In the sequences of the layer, every app trigger compares equal to the
first listed app trigger that is read after the same triggers. -/
def AppsFollowFirst (H : QHash) (layer : Layer) : Prop :=
  ∀ T, layer.trie H = .ok T → T.AppsFollowFirst

variable {H : QHash} {layer : Layer} {basicMap : List (InputEvent × List Bind)}
  {states : List State}

theorem unambiguous_basicMap_iff (h : Mapper.buildBasicMap H layer = .ok basicMap) :
    Unambiguous basicMap ↔ layer.OneAppRemapping := by
  obtain rfl := Mapper.buildBasicMap_eq h
  rw [unambiguous_iff, apps, List.filter_map, List.length_map]
  rfl

theorem unambiguous_edges_iff (h : generateStates H layer = .ok states) :
    (∀ state ∈ states, Unambiguous state.edges) ↔ layer.AppsFollowFirst H := by
  obtain ⟨T, metadata, places, htrie, hT, hb⟩ := trie_of_generateStates h
  have hfollow : layer.AppsFollowFirst H ↔ ∀ p, (T.appEdgesAt p).length ≤ 1 := by
    rw [← hT.appsFollowFirst_iff, AppsFollowFirst, htrie]
    simp
  have hcount : ∀ p, (apps (Trie.state (Numbering.number places) T T p).edges).length =
      (T.appEdgesAt p).length := by
    intro p
    rw [Trie.state, apps, List.filter_map, List.length_map]
    rfl
  rw [hfollow]
  constructor
  · intro hstates p
    by_cases hp : p ∈ places
    · have hstate := hb.state (Numbering.getElem?_number hp)
      have hone := unambiguous_iff.mp (hstates _ (List.mem_of_getElem? hstate))
      rwa [hcount] at hone
    · -- No trigger is read at a place that has no state.
      have hnil : T.edgesAt p = [] :=
        Trie.edgesAt_eq_nil fun x hx hsrc ↦ hp (hsrc ▸ hb.src_mem x hx)
      simp [Trie.appEdgesAt, hnil]
  · intro hone state hstate
    obtain ⟨q, hq⟩ := List.getElem?_of_mem hstate
    obtain ⟨p, hp⟩ : ∃ p, places[q]? = some p := by
      obtain ⟨hlt, -⟩ := List.getElem?_eq_some_iff.mp hq
      exact ⟨_, List.getElem?_eq_getElem (by simpa [← hb.length_states] using hlt)⟩
    have hpstate := hb.state hp
    rw [hq, Option.some.injEq] at hpstate
    rw [unambiguous_iff, hpstate, hcount]
    exact hone p

end Layer

/-- No lookup of an application in the tables of the mapper is ambiguous. -/
structure Mapper.AppsUnambiguous (m : Mapper) : Prop where
  basicMaps : ∀ basicMap ∈ m.basicMaps, Unambiguous basicMap
  edges : ∀ states ∈ m.states, ∀ state ∈ states, Unambiguous state.edges

/-- The tables of an accepted profile are unambiguous exactly when no layer
has basic remappings for two applications, and no two app triggers read
after the same triggers are for different ones. -/
theorem appsUnambiguous_iff {H : QHash} {m m' : Mapper} {p : Profile}
    (h : m.setProfile H p = .ok (true, m')) : m'.AppsUnambiguous ↔
      ∀ layer ∈ p.layers, layer.OneAppRemapping ∧ layer.AppsFollowFirst H := by
  obtain ⟨compiled, hcompiled, hset⟩ := Mapper.setProfile_true h
  obtain ⟨announced, rfl⟩ := Mapper.setLayerInner_spec hset
  constructor
  · rintro ⟨hmaps, hedges⟩ layer hlayer
    obtain ⟨c, hc, hcompile⟩ := Exits.exists_result_of_mem hcompiled hlayer
    obtain ⟨hbuild, hgenerate⟩ := Mapper.compileLayer_eq_ok hcompile
    exact ⟨(Layer.unambiguous_basicMap_iff hbuild).mp (hmaps _ (List.mem_map_of_mem hc)),
      (Layer.unambiguous_edges_iff hgenerate).mp (hedges _ (List.mem_map_of_mem hc))⟩
  · intro hlayers
    refine ⟨fun basicMap hmem ↦ ?_, fun states hmem ↦ ?_⟩
    · obtain ⟨c, hc, rfl⟩ := List.mem_map.mp hmem
      obtain ⟨layer, hlayer, hcompile⟩ := Exits.exists_of_mem_mapM hcompiled hc
      obtain ⟨hbuild, -⟩ := Mapper.compileLayer_eq_ok hcompile
      exact (Layer.unambiguous_basicMap_iff hbuild).mpr (hlayers layer hlayer).1
    · obtain ⟨c, hc, rfl⟩ := List.mem_map.mp hmem
      obtain ⟨layer, hlayer, hcompile⟩ := Exits.exists_of_mem_mapM hcompiled hc
      obtain ⟨-, hgenerate⟩ := Mapper.compileLayer_eq_ok hcompile
      exact (Layer.unambiguous_edges_iff hgenerate).mpr (hlayers layer hlayer).2

/-- Two applications in the basic remappings of a layer. -/
def twoApps : Profile :=
  ⟨"Two", [⟨"Base", [(.appFocused "mail", [.pressKey .a]), (.appFocused "chat", [.pressKey .b])],
    []⟩], 0⟩

theorem twoApps_ambiguous : ∃ m m' : Mapper,
    m.setProfile (.first InputEvent.eq) twoApps = .ok (true, m') ∧ ¬ m'.AppsUnambiguous := by
  refine ⟨{ profile := twoApps, layerChangedCallback := false }, _, rfl, ?_⟩
  intro h
  have hone := (h.basicMaps _ (List.mem_singleton.mpr rfl)).one "mailchat"
  revert hone
  decide

/-- One application, in a basic remapping and in a sequence. -/
def oneApp : Profile :=
  ⟨"One", [⟨"Base", [(.appFocused "mail", [.pressKey .a])],
    [⟨.capture, [.appFocused "mail", .keyPress .b], [.pressKey .c]⟩]⟩], 0⟩

theorem appsUnambiguous_iff_oneApp : ∃ m m' : Mapper,
    m.setProfile (.first InputEvent.eq) oneApp = .ok (true, m') ∧
      (m'.AppsUnambiguous ↔ ∀ layer ∈ oneApp.layers,
        layer.OneAppRemapping ∧ layer.AppsFollowFirst (.first InputEvent.eq)) := by
  have hset : ({ profile := oneApp, layerChangedCallback := false } : Mapper).setProfile
      (.first InputEvent.eq) oneApp = .ok (true, _) := rfl
  exact ⟨_, _, hset, appsUnambiguous_iff hset⟩

end Keybinder
