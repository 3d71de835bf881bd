import LayeredConfig.Http.Router
import LayeredConfig.Main
import LayeredConfig.Proofs.Http.Refusals
import LayeredConfig.Proofs.Scope.Admission
import LayeredConfig.Proofs.Scope.NormalForms
import LayeredConfig.Proofs.Service.CleanViews
import LayeredConfig.Proofs.Service.Commuting
import LayeredConfig.Proofs.Service.Lifecycle
import LayeredConfig.Proofs.Service.Rendering
import LayeredConfig.Proofs.Service.Reverting
import LayeredConfig.Proofs.Service.SiteDirectories
import LayeredConfig.Proofs.Service.StagedLocations
import LayeredConfig.Proofs.Sites.FreshIds
import LayeredConfig.Proofs.Store.Leases
