import Devirt.Proofs.Dispatch.Resolution
import Mathlib.Data.Finset.Card

/-!
Answering many requests with one resolver. Whatever has been asked before, each request gets the
answer that it would get alone, and the resolver keeps one answer for each query it has been asked.
-/

namespace Devirt

/-- A call site as it is put to a resolver. -/
structure Request where
  kind : DispatchKind
  method : MethodRef
  receiver : StaticType
  context : TypeName
  deriving DecidableEq

/-- The query that a request makes, if its receiver refers to a class that is defined and no
interface. -/
def Request.query? (h : Hierarchy) (q : Request) : Option Query :=
  match q.receiver with
  | .reference r =>
    if h.isClass r.name then some ⟨q.kind, q.method, r.name, r.exact, q.context⟩ else none
  | _ => none

theorem Request.query?_eq_map (h : Hierarchy) (q : Request) :
    q.query? h = (q.receiver.classReference? h).map fun r =>
      ⟨q.kind, q.method, r.name, r.exact, q.context⟩ := by
  unfold query? StaticType.classReference?
  cases q.receiver with
  | reference r => by_cases hclass : h.isClass r.name <;> simp [StaticType.reference?, hclass]
  | _ => rfl

namespace Resolver

variable {h : Hierarchy}

def answer (r : Resolver h) (q : Request) : Selection MethodRef × Resolver h :=
  r.resolve q.kind q.method q.receiver q.context

/-- Answers requests one after another, each with what is known from those before. -/
def answerAll (r : Resolver h) : List Request → List (Selection MethodRef) × Resolver h
  | [] => ([], r)
  | q :: requests =>
    let (a, r) := r.answer q
    let (answers, r) := r.answerAll requests
    (a :: answers, r)

/-- The queries that an answer is kept for. -/
def asked (r : Resolver h) : List Query := r.known.map (·.1)

theorem size_eq_length_asked (r : Resolver h) : r.size = r.asked.length := by
  unfold size asked
  rw [List.length_map]

/-! ### One request -/

theorem answer_of_query? {q : Request} {key : Query} (hq : q.query? h = some key) :
    ∃ c : ReferenceType, key = ⟨q.kind, q.method, c.name, c.exact, q.context⟩ ∧
      ∀ r : Resolver h, r.answer q = r.ask q.kind q.method c q.context := by
  rw [Request.query?_eq_map, Option.map_eq_some_iff] at hq
  obtain ⟨c, hc, rfl⟩ := hq
  refine ⟨c, rfl, fun r => ?_⟩
  unfold answer resolve
  rw [hc]

theorem answer_of_query?_eq_none {q : Request} (hq : q.query? h = none) (r : Resolver h) :
    r.answer q = (.noTarget, r) := by
  rw [Request.query?_eq_map, Option.map_eq_none_iff] at hq
  unfold answer resolve
  rw [hq]

/-- What is known does not change an answer. -/
theorem answer_fst (r r' : Resolver h) (q : Request) : (r.answer q).1 = (r'.answer q).1 := by
  unfold answer
  rw [h.resolve_fst r, h.resolve_fst r']

section Ask

variable (r : Resolver h) (kind : DispatchKind) (method : MethodRef) (receiver : ReferenceType)
  (context : TypeName)

/-- A query is added unless it has been asked before. -/
theorem asked_ask :
    (r.ask kind method receiver context).2.asked =
      if ⟨kind, method, receiver.name, receiver.exact, context⟩ ∈ r.asked then r.asked
      else ⟨kind, method, receiver.name, receiver.exact, context⟩ :: r.asked := by
  unfold ask
  dsimp only
  split
  · rename_i e hfind
    have hkey : e.1 = ⟨kind, method, receiver.name, receiver.exact, context⟩ := by
      simpa using List.find?_some hfind
    have hmem : e.1 ∈ r.asked := List.mem_map_of_mem (List.mem_of_find?_eq_some hfind)
    rw [hkey] at hmem
    rw [if_pos hmem]
  · rename_i hfind
    have hnot : ⟨kind, method, receiver.name, receiver.exact, context⟩ ∉ r.asked := by
      intro hmem
      obtain ⟨e, he, hkey⟩ := List.mem_map.1 hmem
      have hne := List.find?_eq_none.1 hfind e he
      simp [hkey] at hne
    rw [if_neg hnot]
    rfl

variable {r} in
theorem nodup_asked_ask (hr : r.asked.Nodup) :
    (r.ask kind method receiver context).2.asked.Nodup := by
  rw [asked_ask]
  split
  · exact hr
  · rename_i hnot
    exact List.nodup_cons.2 ⟨hnot, hr⟩

theorem toFinset_asked_ask :
    (r.ask kind method receiver context).2.asked.toFinset =
      insert ⟨kind, method, receiver.name, receiver.exact, context⟩ r.asked.toFinset := by
  rw [asked_ask]
  split
  · rename_i hmem
    rw [Finset.insert_eq_of_mem (List.mem_toFinset.2 hmem)]
  · rw [List.toFinset_cons]

end Ask

/-! ### A sequence of requests -/

/-- Each answer is the one that any other resolver gives to the request alone. -/
theorem answerAll_fst (r r' : Resolver h) (requests : List Request) :
    (r.answerAll requests).1 = requests.map fun q => (r'.answer q).1 := by
  induction requests generalizing r with
  | nil => rfl
  | cons q requests ih =>
    show (r.answer q).1 :: ((r.answer q).2.answerAll requests).1 = _
    rw [ih, answer_fst r r', List.map_cons]

/-- One answer is kept for each query, whether it was known before or has been asked since. -/
theorem asked_answerAll {r : Resolver h} (hr : r.asked.Nodup) (requests : List Request) :
    (r.answerAll requests).2.asked.Nodup ∧ (r.answerAll requests).2.asked.toFinset =
      r.asked.toFinset ∪ (requests.filterMap (Request.query? h)).toFinset := by
  induction requests generalizing r with
  | nil =>
    show r.asked.Nodup ∧ r.asked.toFinset = _
    simp [hr]
  | cons q requests ih =>
    show ((r.answer q).2.answerAll requests).2.asked.Nodup ∧
      ((r.answer q).2.answerAll requests).2.asked.toFinset = _
    cases hq : q.query? h with
    | none =>
      rw [answer_of_query?_eq_none hq, List.filterMap_cons_none hq]
      exact ih hr
    | some key =>
      obtain ⟨c, rfl, hask⟩ := answer_of_query? hq
      obtain ⟨hnodup, hset⟩ := ih (nodup_asked_ask q.kind q.method c q.context hr)
      rw [hask, List.filterMap_cons_some hq, List.toFinset_cons]
      refine ⟨hnodup, ?_⟩
      rw [hset, toFinset_asked_ask, Finset.insert_union, Finset.union_insert]

/-- A resolver that starts with nothing keeps as many answers as different queries are made. -/
theorem size_answerAll (requests : List Request) :
    ((∅ : Resolver h).answerAll requests).2.size =
      (requests.filterMap (Request.query? h)).toFinset.card := by
  have hempty : (∅ : Resolver h).asked = [] := rfl
  obtain ⟨hnodup, hset⟩ := asked_answerAll (r := (∅ : Resolver h)) (hempty ▸ List.nodup_nil) requests
  rw [size_eq_length_asked, ← List.toFinset_card_of_nodup hnodup, hset, hempty, List.toFinset_nil,
    Finset.empty_union]

end Resolver

end Devirt
