/-
Virtual URIs are read back: what `ofUrl?` takes a URL for is what it was made for, whatever the host is
called. Two facts carry this. A coded host has no slash, so the first slash behind it stands in front of
the index; and the ending that is dropped is the one that was appended, even if the host has it too.
-/
import EmbeddedMarkup.Proofs.VirtualUri

namespace EmbeddedMarkup

/-- A URL in its normal form: reading its text gives it back. -/
def Url.IsNormal (u : Url) : Prop :=
  Url.parse? u.toText = some u

instance (u : Url) : Decidable u.IsNormal :=
  inferInstanceAs (Decidable (_ = _))

theorem Url.splitFirst_append {sep : Char} {a : Text} (h : sep ∉ a) (b : Text) :
    Url.splitFirst sep (a ++ sep :: b) = (a, some b) := by
  have hne : ∀ c ∈ a, decide (c ≠ sep) = true := fun c hc => decide_eq_true fun he => h (he ▸ hc)
  unfold Url.splitFirst
  rw [List.dropWhile_append_of_pos hne, List.takeWhile_append_of_pos hne, List.dropWhile_cons_of_neg (by simp),
    List.takeWhile_cons_of_neg (by simp), List.append_nil]

namespace VirtualUri

/-- Addresses of views of documents that can be open: their host is in normal form, and the index of a
region is one that can be counted to. -/
def IsGenuine : VirtualUri → Prop
  | masked host => host.IsNormal
  | region host index => host.IsNormal ∧ index < 2 ^ 64

theorem dropSuffix?_append (ending t : Text) : dropSuffix? ending (t ++ ending) = some t := by
  unfold dropSuffix?
  rw [if_pos (List.isSuffixOf_iff_suffix.2 (List.suffix_append t ending)), List.length_append, Nat.add_sub_cancel,
    List.take_left]

theorem slash_not_mem_component (t : Text) : '/' ∉ Percent.component t := by
  intro h
  have := Percent.isCoded_of_mem_component h
  revert this
  decide

theorem ofUrl?_url {v : VirtualUri} (h : v.IsGenuine) : ofUrl? v.url = some v := by
  -- the path of the URL begins with its slash
  have hpath : v.url.path = '/' :: (v.place ++ suffix) := rfl
  unfold ofUrl?
  rw [if_pos ⟨rfl, rfl⟩, hpath]
  simp only [dropSuffix?_append]
  cases v with
  | masked host =>
    have hsplit := Url.splitFirst_of_not_mem (slash_not_mem_component host.toText)
    have hhost : Url.parse? host.toText = some host := h
    simp [place, hsplit, Percent.decode?_component, hhost]
  | region host index =>
    have hsplit := Url.splitFirst_append (slash_not_mem_component host.toText) (Decimal.digits index)
    have hhost : Url.parse? host.toText = some host := h.1
    simp [place, hsplit, Percent.decode?_component, hhost, Decimal.read?_digits h.2]

theorem isGenuine_of_ofUrl? {u : Url} {v : VirtualUri} (h : ofUrl? u = some v) (hhost : v.host.IsNormal) :
    v.IsGenuine := by
  cases v with
  | masked host => exact hhost
  | region host index =>
    refine ⟨hhost, ?_⟩
    unfold ofUrl? at h
    split at h
    · split at h
      · simp only [Option.bind_eq_bind, Option.bind_eq_some_iff] at h
        obtain ⟨rest, -, host', -, h⟩ := h
        split at h
        · cases h
        · obtain ⟨n, hn, h⟩ := Option.bind_eq_some_iff.1 h
          cases h
          exact Decimal.lt_of_read? hn
      · cases h
    · cases h

/-- Virtual URIs are a faithful coding. The masked view of every host and each of its regions has a URL by
`toUrl?`, from which `ofUrl?` reads just that view or region back; so different views have different URLs, be they of
different hosts, different regions of one host, or a masked view and a region. And whatever a URL is
read as, be it written like this or otherwise, has a URL that is read as the same. -/
theorem faithfully_read_back :
    (∀ v : VirtualUri, v.IsGenuine → ∃ u, v.toUrl? = some u ∧ ofUrl? u = some v) ∧
    (∀ v v' : VirtualUri, v.IsGenuine → v'.IsGenuine → v ≠ v' → v.toUrl? ≠ v'.toUrl?) ∧
    ∀ (u : Url) (v : VirtualUri), ofUrl? u = some v → v.host.IsNormal →
      ∃ u', v.toUrl? = some u' ∧ ofUrl? u' = some v := by
  have hback : ∀ v : VirtualUri, v.IsGenuine → ∃ u, v.toUrl? = some u ∧ ofUrl? u = some v :=
    fun v hv => ⟨v.url, v.toUrl?_eq, ofUrl?_url hv⟩
  refine ⟨hback, fun v v' hv hv' hne heq => ?_, fun u v h hhost => hback v (isGenuine_of_ofUrl? h hhost)⟩
  rw [toUrl?_eq, toUrl?_eq, Option.some.injEq] at heq
  have := ofUrl?_url hv
  rw [heq, ofUrl?_url hv', Option.some.injEq] at this
  exact hne this.symm

/-- A host that is the address of a region itself, with a query and a fragment that look like more of
its path, and the last index of all. -/
theorem faithfully_read_back_nested :
    let host : Url :=
      { scheme, host := some language, path := "/file%3A%2F%2F%2Fa.html/0.html".toList,
        query := some "x=/1.html".toList, fragment := some "%2F".toList }
    ∃ r m, (region host 18446744073709551615).toUrl? = some r ∧ (masked host).toUrl? = some m ∧ r ≠ m ∧
      ofUrl? r = some (region host 18446744073709551615) ∧ ofUrl? m = some (masked host) := by
  intro host
  have hmasked : (masked host).IsGenuine := (by decide +kernel : host.IsNormal)
  have hregion : (region host 18446744073709551615).IsGenuine := ⟨hmasked, by decide⟩
  obtain ⟨hback, hinj, -⟩ := faithfully_read_back
  obtain ⟨r, hr, hr'⟩ := hback _ hregion
  obtain ⟨m, hm, hm'⟩ := hback _ hmasked
  refine ⟨r, m, hr, hm, ?_, hr', hm'⟩
  rintro rfl
  exact hinj _ _ hregion hmasked (by simp) (hr.trans hm.symm)

end VirtualUri

end EmbeddedMarkup
