import Circulation.File.Network
import Circulation.Proofs.Connecting
import Circulation.Proofs.ShortData

/-!
Networks in files. What is read from a file has short integers only, be they written as integers or
as floating-point numbers, and data with short integers reads back from its text. Main result: a
network that was saved is loaded as it was, and one that was loaded, in whatever form its file had
it, is saved and loaded again as it is.
-/

namespace Circulation

structure Arc.IsShort (a : Arc) : Prop where
  tail : Decimal.IsShort a.tail
  head : Decimal.IsShort a.head
  capacity : Decimal.IsShort a.capacity
  cost : Decimal.IsShort a.cost

theorem Value.IsShort.toInt {v : Value} (hv : v.IsShort) {what : String} {n : Int}
    (h : v.toInt what = .ok n) : Decimal.IsShort n := by
  cases hv with
  | int hn =>
    cases h
    exact hn
  | float x =>
    simp only [Value.toInt] at h
    cases hwhole : Decimal.whole? x with
    | none =>
      rw [hwhole] at h
      cases h
    | some m =>
      rw [hwhole] at h
      cases h
      exact Decimal.isShort_of_whole? hwhole
  | _ => cases h

theorem Value.isShort_member? {ms : List (Text × Value)} (hms : ∀ m ∈ ms, m.2.IsShort)
    {name : Text} {v : Value} (h : member? ms name = some v) : v.IsShort := by
  obtain ⟨m, hm, rfl⟩ := Option.map_eq_some_iff.mp h
  exact hms m (List.mem_of_find?_eq_some hm)

theorem Value.isShort_memberD {ms : List (Text × Value)} (hms : ∀ m ∈ ms, m.2.IsShort)
    (name : Text) {standard : Value} (hstandard : standard.IsShort) :
    ((member? ms name).getD standard).IsShort := by
  cases hname : member? ms name with
  | none => exact hstandard
  | some v => exact isShort_member? hms hname

theorem Value.IsShort.items {v : Value} (hv : v.IsShort) {ws : List Value}
    (h : v.items? = some ws) : ∀ w ∈ ws, w.IsShort := by
  cases hv with
  | list hvs =>
    cases h
    exact hvs
  | text t =>
    cases h
    exact List.forall_mem_map.mpr fun single _ => .text single
  | record hms =>
    cases h
    exact List.forall_mem_map.mpr fun m _ => .text m.1
  | _ => cases h

namespace Arc

theorem isShort_ofMembers {start stop capacity cost : Value} (hstart : start.IsShort)
    (hstop : stop.IsShort) (hcapacity : capacity.IsShort) (hcost : cost.IsShort) {a : Arc}
    (h : ofMembers start stop capacity cost = .ok a) : a.IsShort := by
  obtain ⟨tail, htail, h⟩ := bind_eq_ok_iff.mp h
  obtain ⟨head, hhead, h⟩ := bind_eq_ok_iff.mp h
  obtain ⟨size, hsize, h⟩ := bind_eq_ok_iff.mp h
  obtain ⟨price, hprice, h⟩ := bind_eq_ok_iff.mp h
  split at h
  · cases h
  · next hneg =>
    cases h
    have hshort : Decimal.IsShort (size.toNat : Int) := by
      rw [Int.toNat_of_nonneg (by omega)]
      exact hcapacity.toInt hsize
    exact ⟨hstart.toInt htail, hstop.toInt hhead, hshort, hcost.toInt hprice⟩

theorem isShort_ofRecord {position : Nat} {ms : List (Text × Value)}
    (hms : ∀ m ∈ ms, m.2.IsShort) {a : Arc} (h : ofRecord position ms = .ok a) : a.IsShort := by
  have hfirst : ∀ name other : Text, ∀ v,
      ((member? ms name).orElse fun _ => member? ms other) = some v → v.IsShort := by
    intro name other v hv
    cases hname : member? ms name with
    | none =>
      rw [hname] at hv
      exact Value.isShort_member? hms hv
    | some w =>
      rw [hname] at hv
      cases hv
      exact Value.isShort_member? hms hname
  have hcost : ((member? ms "cost").getD (.int 0)).IsShort :=
    Value.isShort_memberD hms "cost" (.int (by decide))
  unfold ofRecord at h
  dsimp only at h
  split at h
  · next hstart hstop hcapacity =>
    exact isShort_ofMembers (hfirst _ _ _ hstart) (hfirst _ _ _ hstop)
      (Value.isShort_member? hms hcapacity) hcost h
  · cases h

theorem isShort_ofValue {position : Nat} {v : Value} (hv : v.IsShort) {a : Arc}
    (h : ofValue position v = .ok a) : a.IsShort := by
  unfold ofValue at h
  split at h
  · cases hv
  · cases hv with
    | record hms => exact isShort_ofRecord hms h
  · split at h
    · next s e c k hitems =>
      have hshort := hv.items hitems
      exact isShort_ofMembers (hshort s (by simp)) (hshort e (by simp)) (hshort c (by simp))
        (hshort k (by simp)) h
    · cases h
    · cases h

theorem isShort_ofItems {vs : List Value} (hvs : ∀ v ∈ vs, v.IsShort) {position : Nat}
    {arcs : List Arc} (h : ofItems position vs = .ok arcs) : ∀ a ∈ arcs, a.IsShort := by
  induction vs generalizing position arcs with
  | nil =>
    cases h
    simp
  | cons v vs ih =>
    obtain ⟨a, ha, h⟩ := bind_eq_ok_iff.mp h
    obtain ⟨as, has, h⟩ := bind_eq_ok_iff.mp h
    cases h
    exact List.forall_mem_cons.mpr ⟨isShort_ofValue (hvs v List.mem_cons_self) ha,
      ih (fun w hw => hvs w (List.mem_cons_of_mem v hw)) has⟩

theorem IsShort.toValue {a : Arc} (h : a.IsShort) : a.toValue.IsShort := by
  refine .list fun v hv => ?_
  simp only [List.mem_cons, List.not_mem_nil, or_false] at hv
  rcases hv with rfl | rfl | rfl | rfl
  · exact .int h.tail
  · exact .int h.head
  · exact .int h.capacity
  · exact .int h.cost

theorem IsShort.readsBack {a : Arc} (h : a.IsShort) : Json.ReadsBack 1 a.toValue := by
  refine Json.ReadsBack.list fun v hv => ?_
  simp only [List.mem_cons, List.not_mem_nil, or_false] at hv
  rcases hv with rfl | rfl | rfl | rfl
  · exact Json.readsBack_int h.tail
  · exact Json.readsBack_int h.head
  · exact Json.readsBack_int h.capacity
  · exact Json.readsBack_int h.cost

end Arc

namespace File

theorem isWhole_cases {v : Value} (h : isWhole v = true) :
    (∃ n, v = .int n) ∨ ∃ b, v = .bool b := by
  cases v with
  | int n => exact Or.inl ⟨n, rfl⟩
  | bool b => exact Or.inr ⟨b, rfl⟩
  | _ => cases h

namespace NetworkData

/-- The number of nodes is whole, and no number has more digits than a text may give one. -/
structure IsShort (d : NetworkData) : Prop where
  whole : isWhole d.nodeCount = true
  nodeCount : d.nodeCount.IsShort
  arcs : ∀ a ∈ d.arcs, a.IsShort

theorem isShort_ofValue {v : Value} (hv : v.IsShort) {d : NetworkData} (h : ofValue v = .ok d) :
    d.IsShort := by
  cases hv with
  | @record ms hms =>
    have hmember := fun name : Text => Value.isShort_memberD hms name .null
    simp only [ofValue] at h
    split at h
    · next items hwhole hitems =>
      obtain ⟨arcs, harcs, h⟩ := bind_eq_ok_iff.mp h
      cases h
      have hlist := hmember "arcs"
      rw [hitems] at hlist
      exact ⟨hwhole, hmember "node_count", Arc.isShort_ofItems (hlist.items rfl) harcs⟩
    · cases h
  | _ => cases h

theorem ofValue_toValue {d : NetworkData} (h : isWhole d.nodeCount = true) :
    ofValue d.toValue = .ok d := by
  have hcount : member? [("node_count", d.nodeCount), ("arcs", .list (d.arcs.map Arc.toValue))]
      "node_count" = some d.nodeCount := rfl
  have harcs : member? [("node_count", d.nodeCount), ("arcs", .list (d.arcs.map Arc.toValue))]
      "arcs" = some (.list (d.arcs.map Arc.toValue)) := rfl
  simp only [ofValue, toValue, hcount, harcs, Option.getD_some, h, Arc.ofItems_toValue]
  rfl

namespace IsShort

variable {d : NetworkData}

theorem readsBack_nodeCount (h : d.IsShort) : Json.ReadsBack 0 d.nodeCount := by
  have hshort := h.nodeCount
  rcases isWhole_cases h.whole with ⟨n, hn⟩ | ⟨b, hb⟩
  · rw [hn] at hshort ⊢
    cases hshort with
    | int hdigits => exact Json.readsBack_int hdigits
  · rw [hb]
    exact Json.readsBack_bool b

theorem readsBack (h : d.IsShort) : Json.ReadsBack 3 d.toValue := by
  have harcs : Json.ReadsBack 2 (.list (d.arcs.map Arc.toValue)) :=
    Json.ReadsBack.list (List.forall_mem_map.mpr fun a ha => (h.arcs a ha).readsBack)
  have hnames : [Text.ofString "node_count", Text.ofString "arcs"].Nodup := by decide
  refine Json.ReadsBack.record (fun m hm => ?_) hnames
  simp only [List.mem_cons, List.not_mem_nil, or_false] at hm
  rcases hm with rfl | rfl
  · exact ⟨⟨"node_count".toList, rfl, by decide⟩, h.readsBack_nodeCount.mono (Nat.zero_le 2)⟩
  · exact ⟨⟨"arcs".toList, rfl, by decide⟩, harcs⟩

theorem toValue (h : d.IsShort) : d.toValue.IsShort := by
  refine .record fun m hm => ?_
  simp only [List.mem_cons, List.not_mem_nil, or_false] at hm
  rcases hm with rfl | rfl
  · exact h.nodeCount
  · exact .list (List.forall_mem_map.mpr fun a ha => (h.arcs a ha).toValue)

theorem write_eq (h : d.IsShort) : d.write = .ok (Json.write d.toValue) := by
  simp only [write, Json.save, Json.flaw?_eq_none h.toValue]

theorem readBytes_write (h : d.IsShort) :
    ∃ text, d.write = .ok text ∧ readBytes text.toUTF8 = .ok d := by
  refine ⟨Json.write d.toValue, h.write_eq, ?_⟩
  rw [readBytes, Json.readBytes_toUTF8, Json.read_write h.readsBack (by decide)]
  exact ofValue_toValue h.whole

end IsShort

theorem isShort_readBytes {bytes : ByteArray} {d : NetworkData} (h : readBytes bytes = .ok d) :
    d.IsShort := by
  obtain ⟨v, hv, h⟩ := bind_eq_ok_iff.mp h
  exact isShort_ofValue (Json.isShort_readBytes hv) h

/-- A network that is saved is loaded as it was, whatever integers it has as long as a text may
give their digits. A network that was loaded, in any of the ways to write one, is saved and loaded
again as it is. -/
theorem round_trip :
    (∀ (nodeCount : Int) (arcs : List Arc), Decimal.IsShort nodeCount → (∀ a ∈ arcs, a.IsShort) →
      ∃ text, write ⟨.int nodeCount, arcs⟩ = .ok text ∧
        readBytes text.toUTF8 = .ok ⟨.int nodeCount, arcs⟩) ∧
    ∀ (bytes : ByteArray) (d : NetworkData), readBytes bytes = .ok d →
      ∃ text, d.write = .ok text ∧ readBytes text.toUTF8 = .ok d := by
  constructor
  · intro nodeCount arcs hcount harcs
    exact IsShort.readBytes_write ⟨rfl, .int hcount, harcs⟩
  · intro bytes d h
    exact (isShort_readBytes h).readBytes_write

/-- A network with a cost below zero, and a text in which one arc is a record without a cost. -/
theorem round_trip_mixed :
    (∃ text, write ⟨.int 2, [⟨0, 1, 4, -12⟩]⟩ = .ok text ∧
      readBytes text.toUTF8 = .ok ⟨.int 2, [⟨0, 1, 4, -12⟩]⟩) ∧
    ∃ d, readBytes ("\x7b\"arcs\": [[0, 1, 4, -12], \x7b\"tail\": 1, \"head\": 0, " ++
        "\"capacity\": 3\x7d], \"node_count\": 2\x7d").toUTF8 = .ok d ∧
      d.arcs = [⟨0, 1, 4, -12⟩, ⟨1, 0, 3, 0⟩] ∧
      ∃ text, d.write = .ok text ∧ readBytes text.toUTF8 = .ok d := by
  refine ⟨round_trip.1 2 _ (by decide) fun a ha => ?_, ?_⟩
  · cases List.mem_singleton.mp ha
    exact ⟨by decide, by decide, by decide, by decide⟩
  · have harcs : (readBytes ("\x7b\"arcs\": [[0, 1, 4, -12], \x7b\"tail\": 1, \"head\": 0, " ++
        "\"capacity\": 3\x7d], \"node_count\": 2\x7d").toUTF8).toOption.map arcs =
          some [⟨0, 1, 4, -12⟩, ⟨1, 0, 3, 0⟩] := by
      decide +kernel
    generalize String.toUTF8 _ = bytes at harcs ⊢
    cases hread : readBytes bytes with
    | error fault =>
      rw [hread] at harcs
      cases harcs
    | ok d =>
      rw [hread] at harcs
      exact ⟨d, rfl, Option.some.inj harcs, round_trip.2 bytes d hread⟩

end NetworkData

end File

end Circulation
