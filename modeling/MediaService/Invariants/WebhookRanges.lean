import MediaService.Invariants.WebhookTargets

/-! The ranges the guard keeps requests from. Off the allowlist it inspects every
address it is told of, so what it lets through is neither special nor private as its
library has it; the shared address space is neither. An allowlisted host it does not
inspect at all. -/

namespace MediaService

open Foundation

variable {lib : UrlLibrary} {policy : WebhookPolicy} {resolver : Resolver} {url : String}

/-! ### Off the allowlist -/

/-- No host of the allowlist. -/
def OffAllowlist (lib : UrlLibrary) (policy : WebhookPolicy) (url : String) : Prop :=
  ∀ host scheme, splitTarget lib url = .ok (host, scheme) →
    lib.lower host ∉ policy.allowedInternalHosts

/-- A private range that the module names: RFC 1918, unique local, carrier-grade NAT. -/
def isNamedPrivate (ip : IpAddress) : Bool :=
  ip.isRfc1918 || ip.isUniqueLocal || ip.isSharedSpace

/-- The target the policy asks for. -/
structure SafeTarget (lib : UrlLibrary) (policy : WebhookPolicy) (resolver : Resolver)
    (url : String) : Prop where
  scheme : ∃ host scheme, splitTarget lib url = .ok (host, scheme) ∧
    (scheme = "http" ∨ scheme = "https") ∧ (policy.production = true → scheme = "https") ∧
    ((IpAddress.ofString host).isSome ∨ ∃ addrs, resolver host = .ok addrs ∧ addrs ≠ [])
  special : ∀ ip, ConnectsTo lib url resolver ip → isAlwaysBlocked ip = false
  named : policy.production = true → ∀ ip, ConnectsTo lib url resolver ip →
    isNamedPrivate ip = false

/-- In production, a literal of the shared address space, or a name that has such an
address and none that is special, private or no address. -/
def SharedTarget (lib : UrlLibrary) (policy : WebhookPolicy) (resolver : Resolver)
    (url : String) : Prop :=
  policy.production = true ∧ ∃ host, Gated lib policy url host ∧
    ((∃ ip, IpAddress.ofString host = some ip ∧ ip.isSharedSpace = true) ∨
      IpAddress.ofString host = none ∧ ∃ addrs, resolver host = .ok addrs ∧
        (∀ raw ∈ addrs, PermitsText policy raw) ∧ ∃ raw ∈ addrs, ∃ ip,
          IpAddress.ofString (withoutScope raw) = some ip ∧ ip.isSharedSpace = true)

theorem splitTarget_scheme {host scheme : String}
    (h : splitTarget lib url = .ok (host, scheme)) : scheme = "http" ∨ scheme = "https" := by
  unfold splitTarget at h
  split at h
  · cases h
  · dsimp only at h
    split at h
    · cases h
    · rename_i hscheme
      split at h
      · cases h
      · split at h
        · cases h
        · cases h
          tauto

theorem permits_of_isSharedSpace {ip : IpAddress} (h : ip.isSharedSpace = true) :
    Permits policy ip := by
  obtain ⟨hloopback, hlocal, hmulticast, hreserved, hunspecified, hprivate⟩ :=
    IpAddress.isSharedSpace_free h
  refine ⟨?_, fun _ => hprivate⟩
  rw [isAlwaysBlocked, hloopback, hlocal, hmulticast, hreserved, hunspecified]
  rfl

/-- What the policy permits in production is of the named ranges only if shared. -/
theorem isNamedPrivate_of_permits {ip : IpAddress} (h : Permits policy ip)
    (hproduction : policy.production = true) : isNamedPrivate ip = ip.isSharedSpace := by
  have hprivate := h.2 hproduction
  have hrfc : ip.isRfc1918 = false := by
    by_contra hc
    rw [IpAddress.isPrivate_of_isRfc1918 (Bool.not_eq_false _ ▸ hc)] at hprivate
    cases hprivate
  have hulocal : ip.isUniqueLocal = false := by
    by_contra hc
    rw [IpAddress.isPrivate_of_isUniqueLocal (Bool.not_eq_false _ ▸ hc)] at hprivate
    cases hprivate
  rw [isNamedPrivate, hrfc, hulocal]
  rfl

/-- Off the allowlist the guard lets only safe targets through, exactly if the target
is not one of the shared address space in production. -/
theorem urlGuard_safe_iff (lib : UrlLibrary) (policy : WebhookPolicy) (resolver : Resolver)
    (url : String) :
    (OffAllowlist lib policy url → urlGuard lib policy resolver url = .ok true →
        SafeTarget lib policy resolver url) ↔ ¬ SharedTarget lib policy resolver url := by
  simp only [urlGuard_iff]
  constructor
  · rintro h ⟨hproduction, host, ⟨scheme, hsplit, hallow, hscheme⟩, haddress⟩
    have hoff : OffAllowlist lib policy url := by
      intro host' scheme' hsplit'
      rw [hsplit] at hsplit'
      cases hsplit'
      exact hallow
    have hgated : Gated lib policy url host := ⟨scheme, hsplit, hallow, hscheme⟩
    obtain ⟨ip, hip, hshared, hadmits⟩ : ∃ ip, ConnectsTo lib url resolver ip ∧
        ip.isSharedSpace = true ∧ Admits lib policy resolver url := by
      rcases haddress with ⟨ip, hip, hshared⟩ | ⟨hname, addrs, hanswer, hall, raw, hraw, ip, hip,
        hshared⟩
      · exact ⟨ip, ⟨host, scheme, hsplit, .inl hip⟩, hshared,
          .inr (.inl ⟨host, ip, hgated, hip, permits_of_isSharedSpace hshared⟩)⟩
      · exact ⟨ip, ⟨host, scheme, hsplit, .inr ⟨hname, addrs, raw, hanswer, hraw, hip⟩⟩, hshared,
          .inr (.inr ⟨host, addrs, ⟨hgated, hname⟩, hanswer, List.ne_nil_of_mem hraw, hall⟩)⟩
    have hnamed := (h hoff hadmits).named hproduction ip hip
    rw [isNamedPrivate, hshared, Bool.or_true] at hnamed
    cases hnamed
  · intro h hoff hadmits
    have hpermits := fun ip hip => @permits_of_admits lib policy url resolver hadmits hoff ip hip
    refine ⟨?_, fun ip hip => (hpermits ip hip).1, fun hproduction ip hip => ?_⟩
    · rcases hadmits with ⟨host, scheme, hsplit, hallow⟩ |
        ⟨host, ip, ⟨scheme, hsplit, -, hscheme⟩, hip, -⟩ |
        ⟨host, addrs, ⟨⟨scheme, hsplit, -, hscheme⟩, -⟩, hanswer, hne, -⟩
      · exact absurd hallow (hoff host scheme hsplit)
      · exact ⟨host, scheme, hsplit, splitTarget_scheme hsplit, hscheme, .inl (by rw [hip]; rfl)⟩
      · exact ⟨host, scheme, hsplit, splitTarget_scheme hsplit, hscheme,
          .inr ⟨addrs, hanswer, hne⟩⟩
    · rw [isNamedPrivate_of_permits (hpermits ip hip) hproduction]
      by_contra hshared
      rw [Bool.not_eq_false] at hshared
      obtain ⟨host, scheme, hsplit, hip⟩ := hip
      refine h ⟨hproduction, host, ?_⟩
      rcases hadmits with ⟨host', scheme', hsplit', hallow⟩ |
        ⟨host', ip', hgated, hliteral, -⟩ | ⟨host', addrs, ⟨hgated, hname⟩, hanswer, -, hall⟩
      · exact absurd hallow (hoff host' scheme' hsplit')
      · obtain rfl := hgated.host_eq hsplit
        rcases hip with hip | ⟨hname, -⟩
        · exact ⟨hgated, .inl ⟨ip, hip, hshared⟩⟩
        · rw [hliteral] at hname
          cases hname
      · obtain rfl := hgated.host_eq hsplit
        rcases hip with hip | ⟨-, addrs', raw, hanswer', hraw, hip⟩
        · rw [hip] at hname
          cases hname
        · rw [hanswer, Except.ok.injEq] at hanswer'
          exact ⟨hgated, .inr ⟨hname, addrs, hanswer, hall, raw, hanswer' ▸ hraw, ip, hip,
            hshared⟩⟩

/-- An address of carrier-grade NAT. -/
def sharedUrl : String := "https://100.64.0.1/"

/-- The guard lets it through in production. -/
theorem not_urlGuard_safe :
    OffAllowlist .ascii strictPolicy sharedUrl ∧
      urlGuard .ascii strictPolicy publicAnswer sharedUrl = .ok true ∧
      ¬ SafeTarget .ascii strictPolicy publicAnswer sharedUrl := by
  have hsplit : (splitTarget .ascii sharedUrl).toOption = some ("100.64.0.1", "https") := by
    decide +kernel
  have hguard : (urlGuard .ascii strictPolicy publicAnswer sharedUrl).toOption = some true := by
    decide +kernel
  refine ⟨fun _ _ _ => List.not_mem_nil, toOption_eq_some.mp hguard, fun h => ?_⟩
  have hnamed := h.named rfl (.v4 0x64400001)
    ⟨_, _, toOption_eq_some.mp hsplit, .inl (by decide +kernel)⟩
  exact absurd hnamed (by decide +kernel)

/-! ### On the allowlist -/

/-- An allowlisted host with an address that is blocked in every environment. -/
def BlockedAllowed (lib : UrlLibrary) (policy : WebhookPolicy) (resolver : Resolver)
    (url : String) : Prop :=
  ∃ host scheme, splitTarget lib url = .ok (host, scheme) ∧
    lib.lower host ∈ policy.allowedInternalHosts ∧
    ∃ ip, ConnectsTo lib url resolver ip ∧ isAlwaysBlocked ip = true

/-- What is always blocked is, exactly if no allowlisted host has such an address. -/
theorem urlGuard_blocks_iff (lib : UrlLibrary) (policy : WebhookPolicy) (resolver : Resolver)
    (url : String) :
    (urlGuard lib policy resolver url = .ok true →
        ∀ ip, ConnectsTo lib url resolver ip → isAlwaysBlocked ip = false) ↔
      ¬ BlockedAllowed lib policy resolver url := by
  simp only [urlGuard_iff]
  constructor
  · rintro h ⟨host, scheme, hsplit, hallow, ip, hip, hblocked⟩
    rw [h (.inl ⟨host, scheme, hsplit, hallow⟩) ip hip] at hblocked
    cases hblocked
  · intro h hadmits ip hip
    by_cases hoff : OffAllowlist lib policy url
    · exact (permits_of_admits hadmits hoff hip).1
    · simp only [OffAllowlist, not_forall, not_not] at hoff
      obtain ⟨host, scheme, hsplit, hallow⟩ := hoff
      by_contra hblocked
      rw [Bool.not_eq_false] at hblocked
      exact h ⟨host, scheme, hsplit, hallow, ip, hip, hblocked⟩

/-- The name is on the allowlist. -/
def lenientPolicy : WebhookPolicy := ⟨true, ["hooks.example.com"]⟩

/-- The name has the address of the metadata endpoint. -/
def metadataAnswer : Resolver := fun _ => .ok ["169.254.169.254"]

/-- The guard lets an allowlisted name through to the metadata endpoint. -/
theorem not_urlGuard_blocks :
    urlGuard .ascii lenientPolicy metadataAnswer hookUrl = .ok true ∧
      ConnectsTo .ascii hookUrl metadataAnswer (.v4 0xa9fea9fe) ∧
      isAlwaysBlocked (.v4 0xa9fea9fe) = true := by
  have hsplit : (splitTarget .ascii hookUrl).toOption = some ("hooks.example.com", "https") := by
    decide +kernel
  have hguard : (urlGuard .ascii lenientPolicy metadataAnswer hookUrl).toOption = some true := by
    decide +kernel
  exact ⟨toOption_eq_some.mp hguard, ⟨_, _, toOption_eq_some.mp hsplit, .inr ⟨by decide +kernel, _,
    "169.254.169.254", rfl, List.mem_singleton.mpr rfl, by decide +kernel⟩⟩, by decide +kernel⟩

end MediaService
