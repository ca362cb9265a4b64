import MediaService.App.Routes
import MediaService.Concurrency.CategoryLaw
import MediaService.Concurrency.ExportRace
import MediaService.Concurrency.OutboxRace
import MediaService.Concurrency.QuotaLaw
import MediaService.Concurrency.RateBudget
import MediaService.Concurrency.RateLaw
import MediaService.Concurrency.RelocationAlone
import MediaService.Concurrency.RelocationLaw
import MediaService.Concurrency.RepairAlone
import MediaService.Concurrency.RepairSafe
import MediaService.Concurrency.ShareLaw
import MediaService.Concurrency.UploadAlone
import MediaService.Core.FilenamePolicy
import MediaService.Foundation.FixedWindow
import MediaService.Foundation.Handover
import MediaService.Foundation.Queue
import MediaService.Foundation.SameRows
import MediaService.Invariants.ArchiveRoundTrip
import MediaService.Invariants.ArchiveWindow
import MediaService.Invariants.BranchMoves
import MediaService.Invariants.CategoryForest
import MediaService.Invariants.CategoryIsolation
import MediaService.Invariants.DerivedBytes
import MediaService.Invariants.DocumentRefusals
import MediaService.Invariants.Durability
import MediaService.Invariants.ExportDispatch
import MediaService.Invariants.ForeignKeys
import MediaService.Invariants.HardPurge
import MediaService.Invariants.ImportCeilings
import MediaService.Invariants.ImportIsolation
import MediaService.Invariants.ImportScans
import MediaService.Invariants.ImportTwice
import MediaService.Invariants.Ledger
import MediaService.Invariants.ManifestRoundTrip
import MediaService.Invariants.ObjectLife
import MediaService.Invariants.OrphanReports
import MediaService.Invariants.OutboxEvents
import MediaService.Invariants.OwnerIsolation
import MediaService.Invariants.PresetCatalogue
import MediaService.Invariants.PublicVariants
import MediaService.Invariants.PurgeBatches
import MediaService.Invariants.QuotaCeilings
import MediaService.Invariants.RecreatedTree
import MediaService.Invariants.ReferencedBytes
import MediaService.Invariants.Relocation
import MediaService.Invariants.ScanDispatch
import MediaService.Invariants.ScanGate
import MediaService.Invariants.ServedBytes
import MediaService.Invariants.SessionBytes
import MediaService.Invariants.ShareLife
import MediaService.Invariants.SizePolicy
import MediaService.Invariants.SoftDelete
import MediaService.Invariants.UnreadableUploads
import MediaService.Invariants.UploadOutcomes
import MediaService.Invariants.VariantBytes
import MediaService.Invariants.VariantDispatch
import MediaService.Invariants.VariantJobs
import MediaService.Invariants.WebhookRanges
import MediaService.Lifecycle.Frames
import MediaService.ReadSurface.Anonymous
import MediaService.ReadSurface.Callers
import MediaService.ReadSurface.CategoryPages
import MediaService.ReadSurface.CategoryTotals
import MediaService.ReadSurface.CategoryViews
import MediaService.ReadSurface.CursorDecoding
import MediaService.ReadSurface.Export
import MediaService.ReadSurface.Filters
import MediaService.ReadSurface.LiveTraversal
import MediaService.ReadSurface.PatchAnswers
import MediaService.ReadSurface.TokenChecks
import MediaService.ReadSurface.Traversal
import MediaService.Storage.ContentDisposition
import MediaService.Storage.KeyScopes
import MediaService.Storage.RoutableKeys
