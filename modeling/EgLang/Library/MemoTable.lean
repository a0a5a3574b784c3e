import Mathlib.Tactic

/-!
# Memo tables

Requests are answered from a table: a request whose key the table has is answered with the entry there,
any other one with a value made for it, which is entered. An answer is the place of its entry. Two
requests get one entry exactly when they have one key, and the value of an entry was made for the first
of the requests it answers.
-/

namespace EgLang.Library.MemoTable
set_option autoImplicit false

/-- Keys with their values, in the order of their making. -/
abbrev Table (K V : Type) := List (K × V)

section Request
variable {K V R E : Type} [DecidableEq K] (key : R → K) (make : R → Except E V)

/-- The place of the entry of a key. -/
def find (k : K) (t : Table K V) : Option ℕ := t.findIdx? fun e => e.1 = k

def request (t : Table K V) (r : R) : Except E (ℕ × Table K V) :=
  match find (key r) t with
  | some i => .ok (i, t)
  | none =>
    match make r with
    | .ok v => .ok (t.length, t ++ [(key r, v)])
    | .error e => .error e

/-- Requests one after another, each of which `answer` has to answer. -/
def requests (answer : Table K V → R → Except E (ℕ × Table K V)) :
    List R → Table K V → Except E (List ℕ × Table K V)
  | [], t => .ok ([], t)
  | r :: rs, t =>
    match answer t r with
    | .error e => .error e
    | .ok (i, t) =>
      match requests answer rs t with
      | .error e => .error e
      | .ok (is, t) => .ok (i :: is, t)

end Request

section Lookup
variable {K V : Type} {t : Table K V}

theorem find_eq_some [DecidableEq K] {k : K} {i : ℕ} (h : find k t = some i) : ∃ v, t[i]? = some (k, v) := by
  obtain ⟨hi, hkey, -⟩ := List.findIdx?_eq_some_iff_getElem.mp h
  have hkey : t[i].1 = k := of_decide_eq_true hkey
  refine ⟨t[i].2, ?_⟩
  rw [List.getElem?_eq_getElem hi, ← hkey]

theorem find_eq_none [DecidableEq K] {k : K} (h : find k t = none) : ∀ e ∈ t, e.1 ≠ k := by
  intro e he hkey
  have := List.findIdx?_eq_none_iff.mp h e he
  exact of_decide_eq_false this hkey

/-- The entries have different keys. -/
def KeysDiffer (t : Table K V) : Prop := (t.map Prod.fst).Nodup

theorem KeysDiffer.eq_of_key {i j : ℕ} {k : K} {v w : V} (ht : KeysDiffer t)
    (hi : t[i]? = some (k, v)) (hj : t[j]? = some (k, w)) : i = j := by
  have hlt : i < (t.map Prod.fst).length := by
    rw [List.length_map]
    exact (List.getElem?_eq_some_iff.mp hi).1
  refine (List.getElem?_inj hlt ht).mp ?_
  rw [List.getElem?_map, List.getElem?_map, hi, hj]
  rfl

theorem KeysDiffer.snoc {k : K} {v : V} (ht : KeysDiffer t) (hk : ∀ e ∈ t, e.1 ≠ k) :
    KeysDiffer (t ++ [(k, v)]) := by
  have hnot : k ∉ t.map Prod.fst := by
    intro hmem
    obtain ⟨e, he, hkey⟩ := List.mem_map.mp hmem
    exact hk e he hkey
  unfold KeysDiffer
  rw [List.map_append, List.map_singleton, List.nodup_append]
  refine ⟨ht, List.nodup_singleton _, ?_⟩
  intro a ha b hb hab
  rw [List.mem_singleton] at hb
  rw [hab, hb] at ha
  exact hnot ha

end Lookup

section Runs
variable {K V R E : Type} [DecidableEq K] {key : R → K} {make : R → Except E V}

/-- A request leaves the entries where they are, and answers with one of its own key. -/
theorem request_spec {t t' : Table K V} {r : R} {i : ℕ} (h : request key make t r = .ok (i, t'))
    (ht : KeysDiffer t) :
    KeysDiffer t' ∧ t <+: t' ∧ (∃ v, t'[i]? = some (key r, v)) ∧
      ∀ e ∈ t', e ∈ t ∨ (e.1 = key r ∧ make r = .ok e.2) := by
  unfold request at h
  cases hfind : find (key r) t with
  | some j =>
    rw [hfind] at h
    obtain ⟨rfl, rfl⟩ := Prod.mk.inj (Except.ok.inj h)
    exact ⟨ht, List.prefix_refl _, find_eq_some hfind, fun e he => .inl he⟩
  | none =>
    rw [hfind] at h
    cases hmake : make r with
    | error e => simp only [hmake, reduceCtorEq] at h
    | ok v =>
      simp only [hmake] at h
      obtain ⟨rfl, rfl⟩ := Prod.mk.inj (Except.ok.inj h)
      refine ⟨ht.snoc (find_eq_none hfind), List.prefix_append _ _,
        ⟨v, List.getElem?_concat_length⟩, ?_⟩
      intro e he
      rcases List.mem_append.mp he with he | he
      · exact .inl he
      · rw [List.mem_singleton.mp he]
        exact .inr ⟨rfl, rfl⟩

/-- What holds of the answers to some requests. -/
structure Answered (key : R → K) (t : Table K V) (rs : List R) (is : List ℕ) : Prop where
  length : is.length = rs.length
  entry : ∀ p ∈ rs.zip is, ∃ v, t[p.2]? = some (key p.1, v)

theorem getElem?_of_isPrefix {α : Type} {l l' : List α} {i : ℕ} {a : α} (h : l <+: l')
    (hi : l[i]? = some a) : l'[i]? = some a := by
  obtain ⟨rest, rfl⟩ := h
  rw [List.getElem?_append_left (List.getElem?_eq_some_iff.mp hi).1]
  exact hi

theorem requests_spec {rs : List R} {t t' : Table K V} {is : List ℕ}
    (h : requests (request key make) rs t = .ok (is, t')) (ht : KeysDiffer t) :
    KeysDiffer t' ∧ t <+: t' ∧ Answered key t' rs is ∧
      ∀ e ∈ t', e ∈ t ∨ ∃ r ∈ rs, key r = e.1 ∧ make r = .ok e.2 := by
  induction rs generalizing t is with
  | nil =>
    obtain ⟨rfl, rfl⟩ := Prod.mk.inj (Except.ok.inj h)
    exact ⟨ht, List.prefix_refl _, ⟨rfl, by simp⟩, fun e he => .inl he⟩
  | cons r rs ih =>
    unfold requests at h
    cases hr : request key make t r with
    | error e => simp only [hr, reduceCtorEq] at h
    | ok p =>
      obtain ⟨i, t1⟩ := p
      simp only [hr] at h
      cases hrs : requests (request key make) rs t1 with
      | error e => simp only [hrs, reduceCtorEq] at h
      | ok p =>
        obtain ⟨is1, t2⟩ := p
        simp only [hrs] at h
        obtain ⟨rfl, rfl⟩ := Prod.mk.inj (Except.ok.inj h)
        obtain ⟨ht1, hpre1, ⟨v, hv⟩, hnew1⟩ := request_spec hr ht
        obtain ⟨ht2, hpre2, hans, hnew2⟩ := ih hrs ht1
        refine ⟨ht2, hpre1.trans hpre2, ⟨?_, ?_⟩, ?_⟩
        · rw [List.length_cons, List.length_cons, hans.length]
        · intro p hp
          rcases List.mem_cons.mp hp with rfl | hp
          · exact ⟨v, getElem?_of_isPrefix hpre2 hv⟩
          · exact hans.entry p hp
        · intro e he
          rcases hnew2 e he with he1 | ⟨r', hr', hkey, hmake⟩
          · rcases hnew1 e he1 with he0 | ⟨hkey, hmake⟩
            · exact .inl he0
            · exact .inr ⟨r, List.mem_cons_self, hkey.symm, hmake⟩
          · exact .inr ⟨r', List.mem_cons_of_mem r hr', hkey, hmake⟩

variable {rs : List R} {is : List ℕ} {t : Table K V}

/-- From the empty table, an answer is an entry made for a request of the same key. -/
theorem exists_entry (h : requests (request key make) rs [] = .ok (is, t)) {r : R} {i : ℕ}
    (hr : (r, i) ∈ rs.zip is) :
    ∃ v, t[i]? = some (key r, v) ∧ ∃ r0 ∈ rs, key r0 = key r ∧ make r0 = .ok v := by
  obtain ⟨-, -, hans, hnew⟩ := requests_spec h List.nodup_nil
  obtain ⟨v, hv⟩ := hans.entry (r, i) hr
  refine ⟨v, hv, ?_⟩
  rcases hnew (key r, v) (List.mem_of_getElem? hv) with hnil | hmade
  · cases hnil
  · exact hmade

/-- Requests get one entry exactly when they have one key. -/
theorem answer_eq_iff (h : requests (request key make) rs [] = .ok (is, t)) {r r' : R} {i i' : ℕ}
    (hr : (r, i) ∈ rs.zip is) (hr' : (r', i') ∈ rs.zip is) : i = i' ↔ key r = key r' := by
  obtain ⟨hkeys, -, hans, -⟩ := requests_spec h List.nodup_nil
  obtain ⟨v, hv⟩ := hans.entry (r, i) hr
  obtain ⟨w, hw⟩ := hans.entry (r', i') hr'
  constructor
  · intro hi
    rw [← hi, hv] at hw
    exact (Prod.mk.inj (Option.some.inj hw)).1
  · intro hkey
    rw [← hkey] at hw
    exact hkeys.eq_of_key hv hw

/-- Every request is answered. -/
theorem exists_answer (h : requests (request key make) rs [] = .ok (is, t)) {r : R} (hr : r ∈ rs) :
    ∃ i, (r, i) ∈ rs.zip is := by
  obtain ⟨-, -, hans, -⟩ := requests_spec h List.nodup_nil
  obtain ⟨n, hn, rfl⟩ := List.getElem_of_mem hr
  have hn' : n < is.length := by rw [hans.length]; exact hn
  refine ⟨is[n], List.mem_iff_getElem.mpr ⟨n, ?_, List.getElem_zip⟩⟩
  rw [List.length_zip]
  omega

end Runs
end EgLang.Library.MemoTable
